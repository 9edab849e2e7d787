import Works.Wallet.Pool

/-! # A shielded wallet

The pool is the source of the wallet's driver, and the scanner goes with it from call to call: a
tick runs against the pool's own answers, with whatever earlier scans left in the buffers of the
scanner (`Pool.tick`).  The tick returns, whatever the envelopes are (`Board.tick_ends`).  The
balance is that of the letters sealed to the wallet on a board of the run (`Synced.balance_exact`),
and once the pool settles it becomes the one a scan of the whole pool finds (`Synced.syncs`). -/

namespace Works.Wallet

open Works.Lib Outcome Prog Works.Chainfold Engine Works.Sealring

section Driver

variable {K : Kem}

/-- `Driver::new` on the pool. -/
def Pool.build (C : Crypto) (p : Pool K) (engineConfig : EngineConfig) (config : DriverConfig) :
    Scanner K → Outcome Empty (Except ConfigError (Driver Balance Unit) × Scanner K) :=
  interpret (p.answer C) (Driver.build noSink (balanceOf []) () engineConfig config)

/-- `Driver::tick` on the pool. -/
def Pool.tick (C : Crypto) (p : Pool K) (d : Driver Balance Unit) :
    Scanner K → Outcome Empty ((Driver Balance Unit × Tick) × Scanner K) :=
  interpret (p.answer C) (d.step balance noSink)

/-- The loop of `sync`, past ticks of every kind: within `n` ticks one is idle, and it leaves the
balance `result`. -/
def Pool.SyncsTo (C : Crypto) (p : Pool K) (result : Balance) :
    ℕ → Driver Balance Unit → Scanner K → Prop
  | 0, _, _ => False
  | n + 1, d, scanner => ∃ d' t scanner', p.tick C d scanner = .ok ((d', t), scanner') ∧
      ((t = .idle ∧ d'.engine.fold = result) ∨ (t ≠ .idle ∧ p.SyncsTo C result n d' scanner'))

/-- The drivers of a wallet with their scanners: a new one, or one that has ticked or whose pool was
changed.  The pool belongs to the driver, so in a tick one board stands behind all answers. -/
inductive Synced (C : Crypto) (K : Kem) (w : Recipient K) (boards : Set (Board C K))
    (config : DriverConfig) : Driver Balance Unit → Scanner K → Prop
  | new {engineConfig : EngineConfig} {B : Board C K} {scanner scanner' : Scanner K}
      {d : Driver Balance Unit} (hB : B ∈ boards) (hscanner : scanner.recipient = w)
      (built : B.pool.build C engineConfig config scanner = .ok (.ok d, scanner')) :
      Synced C K w boards config d scanner'
  | tick {d d' : Driver Balance Unit} {scanner scanner' : Scanner K} {t : Tick} {B : Board C K}
      (h : Synced C K w boards config d scanner) (hB : B ∈ boards)
      (ticked : B.pool.tick C d scanner = .ok ((d', t), scanner')) :
      Synced C K w boards config d' scanner'
  | sourceMut {d : Driver Balance Unit} {scanner : Scanner K}
      (h : Synced C K w boards config d scanner) : Synced C K w boards config d.sourceMut scanner

end Driver

/-! ### Runs of the pool -/

section Board

variable {C : Crypto} {K : Kem} [DecidableEq K.PublicKey] {w : Recipient K} {B : Board C K}
  (hsuite : Suite C K w) (hapart : Set.InjOn C.commitOf (inputs C K w B.letters))

include hsuite hapart

/-- **A tick of the wallet returns.**  Whatever letters the board holds, whatever state the driver
is in and whatever earlier scans left in the buffers, every scan of a query returns, and so does the
tick: no envelope stops it. -/
theorem Board.tick_ends (d : Driver Balance Unit) (scanner : Scanner K)
    (hscanner : scanner.recipient = w) :
    (∀ first last, ∃ events scanner', B.pool.eventsIn C scanner first last =
      .ok (events, scanner') ∧ scanner'.recipient = w) ∧
    ∃ d' t scanner', B.pool.tick C d scanner = .ok ((d', t), scanner') ∧
      scanner'.recipient = w := by
  refine ⟨fun first last => ⟨_, B.eventsIn_eq hsuite hapart scanner hscanner first last⟩, ?_⟩
  obtain ⟨⟨d', t⟩, scanner', htick, hscanner'⟩ := exists_interpret
    (fun q s hs => B.answer_returns hsuite hapart q s hs) (p := d.step balance noSink) hscanner
  exact ⟨d', t, scanner', htick, hscanner'⟩

/-- A program that asks for no header below the first block runs on the pool as it does on the chain
of the wallet's letters. -/
theorem Board.runs_of_interpret {α : Type} {p : Ask UInt64 α} {post : α → Prop} {a : α}
    {scanner scanner' : Scanner K} (hasks : p.Asks (Query.From B.firstBlock) post)
    (hscanner : scanner.recipient = w)
    (h : interpret (B.pool.answer C) p scanner = .ok (a, scanner')) :
    ∃ τ : Trace UInt64, RunsOn p τ a ∧ (∀ x ∈ τ, x.2 = B.chain w ∧
      x.1.answer = reply .genesis WINDOW (true, B.chain w) x.1.query) ∧
      scanner'.recipient = w ∧ post a := by
  obtain ⟨τ, hrun, hreply, hscanner', hpost⟩ := exists_runs_of_interpret
    (I := fun s : Scanner K => s.recipient = w)
    (T := fun x => x.answer = reply .genesis WINDOW (true, B.chain w) x.query) hasks
    (fun q s r s' hq hs hr => by
      obtain ⟨s'', heq, hs''⟩ := B.answer_eq hsuite hapart hq s hs
      rw [heq] at hr
      cases hr
      exact ⟨rfl, hs''⟩) hscanner h
  refine ⟨_, hrun.on (B.chain w), ?_, hscanner', hpost⟩
  intro x hx
  obtain ⟨y, hy, rfl⟩ := List.mem_map.mp hx
  exact ⟨rfl, hreply y hy⟩

/-- What a script on that chain plays, the pool answers. -/
theorem Board.interpret_of_scripted {α : Type} {p : Ask UInt64 α} {post : α → Prop} {a : α}
    {scanner : Scanner K} (hasks : p.Asks (Query.From B.firstBlock) post)
    (hscanner : scanner.recipient = w) {n : ℕ}
    (h : (scripted .genesis WINDOW (List.replicate n (true, B.chain w)) p).2 = some a) :
    ∃ scanner', interpret (B.pool.answer C) p scanner = .ok (a, scanner') ∧
      scanner'.recipient = w := by
  have hrun := (runsOn_scripted .genesis WINDOW h).1
  refine Runs.interpret (I := fun s : Scanner K => s.recipient = w) hrun hasks
    (fun x hx hq s hs => ?_) hscanner
  obtain ⟨y, hy, rfl⟩ := List.mem_map.mp hx
  obtain ⟨r, hr, hanswer⟩ := scripted_answer .genesis WINDOW h y hy
  rw [hanswer, List.eq_of_mem_replicate hr]
  exact B.answer_eq hsuite hapart hq s hs

/-- A tick of the pool is one against the chain of the wallet's letters. -/
theorem Board.tickOn {d d' : Driver Balance Unit} {t : Tick} {scanner scanner' : Scanner K}
    (hd : FromBlock B.firstBlock d) (hscanner : scanner.recipient = w)
    (h : B.pool.tick C d scanner = .ok ((d', t), scanner')) :
    TickOn balance noSink (B.chain w) d d' t ∧ FromBlock B.firstBlock d' ∧
      scanner'.recipient = w := by
  obtain ⟨τ, hrun, hreply, hscanner', hd'⟩ := B.runs_of_interpret hsuite hapart
    (Driver.step_asks balance noSink B.firstU64 hd) hscanner h
  exact ⟨.of_reply hrun hreply, hd', hscanner'⟩

theorem Board.syncsTo {start : ℕ} {init result : Balance}
    (hresult : foldOver balance init ((B.chain w).eventsIn start (B.chain w).headNumber) = result) :
    ∀ (n : ℕ) (d : Driver Balance Unit) (scanner : Scanner K), FromBlock B.firstBlock d →
      scanner.recipient = w → IdleWithin balance noSink (B.chain w) start init n d →
      B.pool.SyncsTo C result n d scanner
  | 0, _, _, _, _, h => h
  | n + 1, d, scanner, hd, hscanner, ⟨_, h⟩ => by
      obtain ⟨-, d', t, scanner', htick, -⟩ := B.tick_ends hsuite hapart d scanner hscanner
      obtain ⟨hon, hd', hscanner'⟩ := B.tickOn hsuite hapart hd hscanner htick
      refine ⟨d', t, scanner', htick, ?_⟩
      rcases h d' t hon with ⟨hidle, hfold⟩ | ⟨hbusy, hrest⟩
      · exact Or.inl ⟨hidle, hfold.trans hresult⟩
      · exact Or.inr ⟨hbusy, Board.syncsTo hresult n d' scanner' hd' hscanner' hrest⟩

end Board

/-! ### Runs of the wallet -/

section Synced

variable {C : Crypto} {K : Kem} [DecidableEq K.PublicKey] {w : Recipient K}
  {boards : Set (Board C K)} {config : DriverConfig} {d : Driver Balance Unit}
  {scanner : Scanner K} (hsuite : Suite C K w)
  (hapart : ∀ B ∈ boards, Set.InjOn C.commitOf (inputs C K w B.letters))
  (hfirst : ∀ B ∈ boards, B.firstBlock ≤ config.startBlock)

include hsuite hapart hfirst

/-- What the wallet's driver reaches, a driver over the chains of its letters reaches. -/
theorem Synced.reached {rule : Trace UInt64 → Prop} (hrule : ∀ B ∈ boards, ∀ τ : Trace UInt64,
      (∀ x ∈ τ, x.2 = B.chain w ∧ Truthful (B.chain w) x.1) → rule τ)
    (h : Synced C K w boards config d scanner) :
    Reached balance noSink (Board.chain w '' boards) rule (balanceOf []) config d ∧
      FromBlock (min config.startBlock U64_MAX) d ∧ scanner.recipient = w := by
  have hasked : ∀ B ∈ boards, ∀ q, Query.From (min config.startBlock U64_MAX) q →
      Query.From B.firstBlock q := fun B hB q hq =>
    hq.mono (le_min (hfirst B hB) B.firstU64)
  induction h with
  | @new engineConfig B scanner scanner' d hB hscanner built =>
      obtain ⟨τ, hrun, -, hscanner', hd⟩ := B.runs_of_interpret hsuite (hapart B hB)
        ((Driver.build_asks noSink (min_le_left _ _)).allow (hasked B hB)) hscanner built
      exact ⟨⟨(), engineConfig, τ, d, hrun, .refl⟩, hd d rfl, hscanner'⟩
  | @tick d d' scanner scanner' t B _ hB ticked ih =>
      obtain ⟨hreached, hd, hscanner⟩ := ih
      obtain ⟨τ, hrun, hreply, hscanner', hd'⟩ := B.runs_of_interpret hsuite (hapart B hB)
        ((Driver.step_asks balance noSink (min_le_right _ _) hd).allow (hasked B hB)) hscanner
        ticked
      have htrue : ∀ x ∈ τ, x.2 = B.chain w ∧ Truthful (B.chain w) x.1 := fun x hx =>
        ⟨(hreply x hx).1, (answeredBy_of_reply .genesis WINDOW hreply x hx).2.1⟩
      refine ⟨hreached.next (.tick hrun ?_ (hrule B hB τ htrue)), hd', hscanner'⟩
      intro x hx
      obtain ⟨heq, ht⟩ := htrue x hx
      rw [heq]
      exact ⟨Set.mem_image_of_mem _ hB, ht⟩
  | sourceMut _ ih =>
      obtain ⟨hreached, hd, hscanner⟩ := ih
      exact ⟨hreached.next .sourceMut, hd.of_eq rfl rfl (by simp [Driver.sourceMut]), hscanner⟩

/-- **The balance is that of the wallet's letters.**  The pool may reorganise between ticks.  While
the engine is active, there is a board of the run with all the blocks the engine remembers, and the
balance is that of the letters sealed to the wallet on it from the start block up to the cursor. -/
theorem Synced.balance_exact (hcom : Committed (Board.chain w '' boards))
    (h : Synced C K w boards config d scanner) (hactive : d.engine.status = .active) :
    (d.engine.cursor = none → d.engine.fold = balanceOf []) ∧
    ∀ p, d.engine.cursor = some p → ∃ B ∈ boards, (∀ b ∈ d.engine.observed, (B.chain w).Has b) ∧
      (((B.chain w).upTo config.startBlock p).length ≤ U64_MAX →
        d.engine.fold = balanceOf (((B.chain w).upTo config.startBlock p).map (·.event))) := by
  obtain ⟨hreached, -, -⟩ := h.reached hsuite hapart hfirst fun B _ τ hτ => bracketed_of_eq hτ
  obtain ⟨hkept, hconfig, hinit⟩ := hreached.kept hcom fun τ hτ hb => bracketed_rule hτ hb
  have hs := hkept.sound
  rw [hconfig, hinit] at hs
  have hfollows := hs.follows_chain hcom (.inl hactive)
  refine ⟨hfollows.fresh, fun p hp => ?_⟩
  obtain ⟨-, newest, hnewest, -, ⟨_, ⟨B, hB, rfl⟩, hhas⟩, hfold⟩ := hfollows.chain p hp
  refine ⟨B, hB, hhas, fun hle => ?_⟩
  rw [hfold _ (Set.mem_image_of_mem _ hB) (hhas _ (List.mem_of_getLast? hnewest)),
    foldOver_balance _ [] (by simpa using hle), List.nil_append]

/-- **`sync` ends with what `rescan` finds.**  Once the pool stays as one of the boards of the run,
no lower than the others, the wallet ticks until it is idle, and its balance is then the one that a
scan of the whole pool with a new scanner yields, whatever reorganisations it followed. -/
theorem Synced.syncs (hcom : Committed (Board.chain w '' boards))
    (h : Synced C K w boards config d scanner) (hactive : d.engine.status = .active)
    {B : Board C K} (hB : B ∈ boards) (hstart : config.startBlock = B.firstBlock)
    (hhead : ∀ D ∈ boards, (D.chain w).headNumber ≤ (B.chain w).headNumber)
    (hle : (B.ownNotes w).length ≤ U64_MAX) :
    ∃ result, B.pool.rescan C w = .ok result ∧ ∃ n, B.pool.SyncsTo C result n d scanner := by
  have hrule : ∀ D ∈ boards, ∀ τ : Trace UInt64,
      (∀ x ∈ τ, x.2 = D.chain w ∧ Truthful (D.chain w) x.1) →
        Bracketed τ ∧ HeadsUpTo (B.chain w).headNumber τ := by
    intro D hD τ hτ
    refine ⟨bracketed_of_eq hτ, headsUpTo_of_le (hhead D hD) fun x hx => ?_⟩
    obtain ⟨heq, htrue⟩ := hτ x hx
    exact ⟨(congrArg Chain.headNumber heq).le, heq ▸ htrue⟩
  obtain ⟨hreached, hd, hscanner⟩ := h.reached hsuite hapart hfirst hrule
  have hevents : ((B.chain w).eventsIn B.firstBlock (B.chain w).headNumber).length ≤ U64_MAX := by
    rw [← List.length_map (fun x : ChainEvent UInt64 => x.event), B.map_event_eventsIn]
    exact hle
  obtain ⟨hkept, hconfig, hinit⟩ := hreached.kept hcom fun _ _ hr => hr
  have hunhalted : Unhalted balance (B.chain w) d.config.startBlock d.initial := by
    rw [hconfig, hinit, hstart]
    exact balance_unhalted hevents
  obtain ⟨n, hn⟩ := Ready.exists_idleWithin hcom (Set.mem_image_of_mem _ hB) noSink
    ⟨hkept, hactive⟩ hunhalted
  rw [hconfig, hinit, hstart] at hn
  have hfrom : FromBlock B.firstBlock d := by
    rwa [hstart, min_eq_left B.firstU64] at hd
  refine ⟨_, B.rescan_eq hsuite (hapart B hB) hle, n,
    B.syncsTo hsuite (hapart B hB) ?_ n d scanner hfrom hscanner hn⟩
  rw [foldOver_balance _ [] (by simpa using hevents), List.nil_append, B.map_event_eventsIn]

end Synced

/-! ### A small wallet -/

/-- The table of the frozen envelope, with the secret as the commitment of its derivation. -/
def sampleCrypto : Crypto :=
  { goldenCrypto with
    hkdf := fun _ secret _ len => List.Vector.ofFn fun i : Fin len =>
      if i.val < KEY_LEN + NONCE_LEN then 0 else secret.getD (i.val - (KEY_LEN + NONCE_LEN)) 0 }

instance : DecidableEq MockKem.PublicKey := inferInstanceAs (DecidableEq Bytes32)

theorem sampleCrypto_suite : Suite sampleCrypto MockKem goldenRecipient where
  asserts := ⟨by decide, by decide, by decide⟩
  epkSized := mockKem_epkSized
  aead := ⟨goldenCrypto_aeadCorrect.encrypts, goldenCrypto_aeadCorrect.length,
    goldenCrypto_aeadCorrect.decrypts⟩
  inPlace := goldenCrypto_inPlaceAgrees
  batch := mockKem_batchPointwise
  encodes := List.Vector.toList_injective
  decapsulates := mockKem_decapsulates _

def ownLetter : Letter MockKem := ⟨goldenRecipient, 5, goldenEpk⟩

def otherLetter : Letter MockKem :=
  ⟨Recipient.new (List.Vector.replicate 32 7), 9, List.Vector.replicate 32 1⟩

/-- Another letter for the wallet, from the same ephemeral key. -/
def lateLetter : Letter MockKem := ⟨goldenRecipient, 7, goldenEpk⟩

theorem ownLetter_sealed : (ownLetter.sealed sampleCrypto).isOk = true := by decide +kernel

theorem otherLetter_sealed : (otherLetter.sealed sampleCrypto).isOk = true := by decide +kernel

theorem lateLetter_sealed : (lateLetter.sealed sampleCrypto).isOk = true := by decide +kernel

/-- What the wallet derives from when it tries the envelope of a letter. -/
theorem mem_derives_sealed {C : Crypto} {K : Kem} {w : Recipient K} (hsuite : Suite C K w)
    {l : Letter K} {e : SealedNote K} (h : l.sealed C = .ok e) {q : List UInt8 × List UInt8}
    (hq : q ∈ Derives K Payments w e) :
    ∃ shared, K.decap w.sk (K.epkBytes (K.encap l.rng l.recipient.pk).1) = some shared ∧
      q = (K.sharedBytes shared, kdfInfo VERSION K.KEM_ID Payments.DOMAIN_TAG
        (K.epkBytes (K.encap l.rng l.recipient.pk).1) (K.epkBytes w.pkEncoded)) := by
  obtain ⟨-, -, -, ct, -, -, -, hbytes⟩ :=
    (sealNote_eq_ok hsuite.asserts hsuite.epkSized hsuite.aead e).mp h
  obtain ⟨-, -, hepk, -⟩ := SealedNote.fields_of_bytes (hsuite.epkSized _)
    (List.Vector.toList_length _) hbytes
  obtain ⟨shared, hdecap, hsecret, hinfo⟩ := hq
  rw [hepk] at hdecap hinfo
  obtain ⟨-, hinfo⟩ := writeKdfInfo_eq_ok.mp hinfo
  exact ⟨shared, hdecap, Prod.ext hsecret hinfo⟩

/-- The input of the wallet when it tries the other letter. -/
def triedInput : List UInt8 × List UInt8 :=
  ((xor32 (List.Vector.replicate 32 1) goldenRecipient.sk).toList,
    kdfInfo VERSION MockKem.KEM_ID Payments.DOMAIN_TAG (List.replicate 32 1)
      (MockKem.epkBytes goldenRecipient.pkEncoded))

theorem sampleInputs_mem {q : List UInt8 × List UInt8}
    (h : q ∈ inputs sampleCrypto MockKem goldenRecipient {ownLetter, otherLetter, lateLetter}) :
    q = sealedInput Payments ownLetter.recipient ownLetter.rng ∨
      q = sealedInput Payments otherLetter.recipient otherLetter.rng ∨ q = triedInput := by
  obtain ⟨l, rfl | rfl | rfl, rfl | ⟨e, he, hq⟩⟩ := h
  · exact .inl rfl
  · obtain ⟨shared, hdecap, rfl⟩ := mem_derives_sealed sampleCrypto_suite he hq
    cases (mockKem_decapsulates _ ownLetter.rng).symm.trans hdecap
    exact .inl rfl
  · exact .inr (.inl rfl)
  · obtain ⟨shared, hdecap, rfl⟩ := mem_derives_sealed sampleCrypto_suite he hq
    have htried : MockKem.decap goldenRecipient.sk (MockKem.epkBytes (MockKem.encap otherLetter.rng
        otherLetter.recipient.pk).1) =
          some (xor32 (List.Vector.replicate 32 1) goldenRecipient.sk) :=
      mockKem_decapsulates goldenRecipient.sk otherLetter.rng
    cases htried.symm.trans hdecap
    exact .inr (.inr rfl)
  · exact .inl rfl
  · obtain ⟨shared, hdecap, rfl⟩ := mem_derives_sealed sampleCrypto_suite he hq
    cases (mockKem_decapsulates _ lateLetter.rng).symm.trans hdecap
    exact .inl rfl

theorem sampleInputs_apart : Set.InjOn sampleCrypto.commitOf
    (inputs sampleCrypto MockKem goldenRecipient {ownLetter, otherLetter, lateLetter}) := by
  have h₁ : sampleCrypto.commitOf (sealedInput Payments ownLetter.recipient ownLetter.rng) ≠
      sampleCrypto.commitOf (sealedInput Payments otherLetter.recipient otherLetter.rng) := by
    decide +kernel
  have h₂ : sampleCrypto.commitOf (sealedInput Payments ownLetter.recipient ownLetter.rng) ≠
      sampleCrypto.commitOf triedInput := by
    decide +kernel
  have h₃ : sampleCrypto.commitOf (sealedInput Payments otherLetter.recipient otherLetter.rng) ≠
      sampleCrypto.commitOf triedInput := by
    decide +kernel
  intro q hq q' hq' heq
  rcases sampleInputs_mem hq with rfl | rfl | rfl <;>
    rcases sampleInputs_mem hq' with rfl | rfl | rfl
  · rfl
  · exact absurd heq h₁
  · exact absurd heq h₂
  · exact absurd heq.symm h₁
  · rfl
  · exact absurd heq h₃
  · exact absurd heq.symm h₂
  · exact absurd heq.symm h₃
  · rfl

theorem exists_ok_of_isOk {α : Type} {x : Outcome SealError α} (h : x.isOk = true) :
    ∃ a, x = .ok a := by
  cases x with
  | ok a => exact ⟨a, rfl⟩
  | error e => cases h

/-- The chain of the wallet's letters when the pool has one block: one letter, its second. -/
def youngChain : Chain UInt64 where
  blocks := [emptyBlock, ⟨Vector.replicate 32 1, [(1, 5)]⟩]
  nonempty := List.cons_ne_nil _ _
  bounded := by decide
  sorted := by simp [emptyBlock]

/-- A block later. -/
def staleChain : Chain UInt64 where
  blocks := [emptyBlock, ⟨Vector.replicate 32 1, [(1, 5)]⟩, ⟨Vector.replicate 32 2, [(0, 5)]⟩]
  nonempty := List.cons_ne_nil _ _
  bounded := by decide
  sorted := by simp [emptyBlock]

/-- After a reorganisation of the last block. -/
def settledChain : Chain UInt64 where
  blocks := [emptyBlock, ⟨Vector.replicate 32 1, [(1, 5)]⟩, ⟨Vector.replicate 32 3, []⟩,
    ⟨Vector.replicate 32 4, [(0, 7)]⟩]
  nonempty := List.cons_ne_nil _ _
  bounded := by decide
  sorted := by simp [emptyBlock]

theorem sampleWallet_committed : Committed {youngChain, staleChain, settledChain} := by
  refine committed_of_agree ?_
  intro C hC D hD
  simp only [Set.mem_insert_iff, Set.mem_singleton_iff] at hC hD
  rcases hC with rfl | rfl | rfl <;> rcases hD with rfl | rfl | rfl <;> (unfold agree; decide)

/-- A board of the sample pool, whose first block has number 1. -/
def sampleBoard (postings : List (Posting sampleCrypto MockKem)) (h : postings.length ≤ 3) :
    Board sampleCrypto MockKem :=
  ⟨1, postings, .inl one_pos, by decide, by unfold U64_MAX; omega⟩

theorem sampleBoard_apart {postings : List (Posting sampleCrypto MockKem)} {h : postings.length ≤ 3}
    (hl : ∀ b ∈ postings, ∀ l ∈ b.letters, l = ownLetter ∨ l = otherLetter ∨ l = lateLetter) :
    Set.InjOn sampleCrypto.commitOf
      (inputs sampleCrypto MockKem goldenRecipient (sampleBoard postings h).letters) := by
  apply sampleInputs_apart.mono
  rintro q ⟨l, ⟨b, hb, hmem⟩, hq⟩
  exact ⟨l, hl b hb l hmem, hq⟩

/-- The boards of a pool with these chains. -/
structure SampleBoards (boards : Set (Board sampleCrypto MockKem)) : Prop where
  chains : Board.chain goldenRecipient '' boards = {youngChain, staleChain, settledChain}
  first : ∀ B ∈ boards, B.firstBlock = 1
  apart : ∀ B ∈ boards,
    Set.InjOn sampleCrypto.commitOf (inputs sampleCrypto MockKem goldenRecipient B.letters)

theorem exists_sampleBoards : ∃ boards, SampleBoards boards := by
  obtain ⟨e₁, h₁⟩ := exists_ok_of_isOk otherLetter_sealed
  obtain ⟨e₂, h₂⟩ := exists_ok_of_isOk ownLetter_sealed
  obtain ⟨e₃, h₃⟩ := exists_ok_of_isOk lateLetter_sealed
  let young : Posting sampleCrypto MockKem := ⟨Vector.replicate 32 1, [otherLetter, ownLetter],
    [e₁, e₂], .cons h₁ (.cons h₂ .nil), by decide⟩
  let stale : Posting sampleCrypto MockKem := ⟨Vector.replicate 32 2, [ownLetter], [e₂],
    .cons h₂ .nil, by decide⟩
  let empty : Posting sampleCrypto MockKem := ⟨Vector.replicate 32 3, [], [], .nil, by decide⟩
  let late : Posting sampleCrypto MockKem := ⟨Vector.replicate 32 4, [lateLetter], [e₃],
    .cons h₃ .nil, by decide⟩
  refine ⟨{sampleBoard [young] (by simp), sampleBoard [young, stale] (by simp),
    sampleBoard [young, empty, late] (by simp)}, ?_, ?_, ?_⟩
  · rw [Set.image_insert_eq, Set.image_pair]
    rfl
  · rintro B (rfl | rfl | rfl) <;> rfl
  · rintro B (rfl | rfl | rfl)
    · exact sampleBoard_apart (by simp [young])
    · exact sampleBoard_apart (by simp [young, stale])
    · exact sampleBoard_apart (by simp [young, empty, late])

section SampleBoards

variable {boards : Set (Board sampleCrypto MockKem)}

theorem SampleBoards.first_le (hb : SampleBoards boards) :
    ∀ B ∈ boards, B.firstBlock ≤ (⟨1, some 1, none⟩ : DriverConfig).startBlock :=
  fun B hB => (hb.first B hB).le

theorem SampleBoards.exists_board (hb : SampleBoards boards) {D : Chain UInt64}
    (hD : D ∈ ({youngChain, staleChain, settledChain} : Set (Chain UInt64))) :
    ∃ B ∈ boards, B.chain goldenRecipient = D := by
  rw [← hb.chains] at hD
  exact hD

theorem SampleBoards.committed (hb : SampleBoards boards) :
    Committed (Board.chain goldenRecipient '' boards) := by
  rw [hb.chains]
  exact sampleWallet_committed

end SampleBoards

theorem sampleBoard_ticks : ∃ B : Board sampleCrypto MockKem,
    B.chain goldenRecipient = settledChain ∧ ∀ (d : Driver Balance Unit) (scanner : Scanner MockKem),
      scanner.recipient = goldenRecipient →
        ∃ d' t scanner', B.pool.tick sampleCrypto d scanner = .ok ((d', t), scanner') := by
  obtain ⟨boards, hb⟩ := exists_sampleBoards
  obtain ⟨B, hB, hchain⟩ := hb.exists_board (D := settledChain) (by simp)
  refine ⟨B, hchain, fun d scanner hscanner => ?_⟩
  obtain ⟨-, d', t, scanner', htick, -⟩ :=
    B.tick_ends sampleCrypto_suite (hb.apart B hB) d scanner hscanner
  exact ⟨d', t, scanner', htick⟩

/-- A new driver that ticks against some chains, the last one first. -/
def sampleRun : List (Chain UInt64) → Option (Driver Balance Unit)
  | [] => (scripted .genesis WINDOW (List.replicate 1 (true, youngChain))
      (Driver.build noSink (balanceOf []) () sampleConfig ⟨1, some 1, none⟩)).2.bind
        Except.toOption
  | D :: earlier => (sampleRun earlier).bind fun d =>
      (scripted .genesis WINDOW (List.replicate 8 (true, D)) (d.step balance noSink)).2.map Prod.fst

/-- It is the driver of a wallet whose pool shows the boards with these chains. -/
theorem SampleBoards.synced {boards : Set (Board sampleCrypto MockKem)} (hb : SampleBoards boards) :
    ∀ {chains : List (Chain UInt64)} {d : Driver Balance Unit},
    (∀ D ∈ chains, D ∈ ({youngChain, staleChain, settledChain} : Set (Chain UInt64))) →
      sampleRun chains = some d →
        ∃ scanner, Synced sampleCrypto MockKem goldenRecipient boards ⟨1, some 1, none⟩ d scanner
  | [], d, _, h => by
      obtain ⟨r, hbuild, hr⟩ := Option.bind_eq_some_iff.mp h
      obtain ⟨B, hB, hchain⟩ := hb.exists_board (D := youngChain) (by simp)
      rw [← hchain] at hbuild
      have hnew : (Scanner.new goldenRecipient).recipient = goldenRecipient := rfl
      obtain ⟨scanner, hbuilt, -⟩ := B.interpret_of_scripted sampleCrypto_suite (hb.apart B hB)
        (Driver.build_asks noSink (hb.first_le B hB)) hnew hbuild
      cases r with
      | error e => cases hr
      | ok d' =>
          cases hr
          exact ⟨scanner, .new hB rfl hbuilt⟩
  | D :: earlier, d', hchains, h => by
      obtain ⟨d, hd, hlast⟩ := Option.bind_eq_some_iff.mp h
      obtain ⟨⟨d'', t⟩, htick, rfl⟩ := Option.map_eq_some_iff.mp hlast
      obtain ⟨scanner, hsynced⟩ := hb.synced (fun E hE => hchains E (List.mem_cons_of_mem D hE)) hd
      obtain ⟨-, hfrom, hscanner⟩ := hsynced.reached sampleCrypto_suite hb.apart hb.first_le
        fun _ _ _ hτ => bracketed_of_eq hτ
      obtain ⟨B, hB, hchain⟩ := hb.exists_board (hchains D List.mem_cons_self)
      rw [← hchain] at htick
      have hfrom : FromBlock B.firstBlock d := by
        rw [hb.first B hB]
        exact hfrom
      obtain ⟨scanner', hticked, -⟩ := B.interpret_of_scripted sampleCrypto_suite (hb.apart B hB)
        (Driver.step_asks balance noSink B.firstU64 hfrom) hscanner htick
      exact ⟨scanner', hsynced.tick hB hticked⟩

/-- Two blocks of the pool, then a reorganisation of the second one that a rollback follows. -/
theorem sampleRun_reorganised :
    ((sampleRun [settledChain, settledChain, staleChain, youngChain]).any fun d =>
      d.engine.status.isActive && decide (d.engine.cursor = some ⟨3, 0⟩) &&
        decide (d.engine.observed.getLast? = some ⟨3, Vector.replicate 32 4⟩)) = true := by
  decide +kernel

theorem sampleRun_stale : ((sampleRun [staleChain, youngChain]).any fun d =>
    d.engine.status.isActive && decide (d.engine.cursor = some ⟨2, 0⟩)) = true := by
  decide +kernel

theorem sampleWallet_balance : ∃ boards d scanner, SampleBoards boards ∧
    Synced sampleCrypto MockKem goldenRecipient boards ⟨1, some 1, none⟩ d scanner ∧
    d.engine.cursor = some ⟨3, 0⟩ ∧ d.engine.fold = ⟨12, 2⟩ := by
  obtain ⟨boards, hb⟩ := exists_sampleBoards
  obtain ⟨d, hd, hend⟩ := (Option.any_eq_true _ _).mp sampleRun_reorganised
  obtain ⟨hend, hnewest⟩ := Bool.and_eq_true_iff.mp hend
  obtain ⟨hactive, hcursor⟩ := Bool.and_eq_true_iff.mp hend
  have hcursor := of_decide_eq_true hcursor
  obtain ⟨scanner, hsynced⟩ := hb.synced (by simp) hd
  obtain ⟨-, hbalance⟩ := hsynced.balance_exact sampleCrypto_suite hb.apart hb.first_le hb.committed
    (EngineStatus.isActive_iff.mp hactive)
  obtain ⟨B, hB, hhas, hfold⟩ := hbalance _ hcursor
  have hmem : B.chain goldenRecipient ∈ ({youngChain, staleChain, settledChain} : Set _) := by
    rw [← hb.chains]
    exact Set.mem_image_of_mem _ hB
  have hnewest := hhas _ (List.mem_of_getLast? (of_decide_eq_true hnewest))
  refine ⟨boards, d, scanner, hb, hsynced, hcursor, ?_⟩
  rcases hmem with heq | heq | heq
  · rw [heq] at hnewest
    exact absurd hnewest (by decide)
  · rw [heq] at hnewest
    exact absurd hnewest (by decide)
  · rw [heq] at hfold
    exact hfold (by decide)

theorem sampleWallet_syncs : ∃ boards d scanner, ∃ B ∈ boards, SampleBoards boards ∧
    Synced sampleCrypto MockKem goldenRecipient boards ⟨1, some 1, none⟩ d scanner ∧
    d.engine.cursor = some ⟨2, 0⟩ ∧ B.ownNotes goldenRecipient = [5, 7] ∧
    ∃ result, B.pool.rescan sampleCrypto goldenRecipient = .ok result ∧
      ∃ n, B.pool.SyncsTo sampleCrypto result n d scanner := by
  obtain ⟨boards, hb⟩ := exists_sampleBoards
  obtain ⟨d, hd, hend⟩ := (Option.any_eq_true _ _).mp sampleRun_stale
  obtain ⟨hactive, hcursor⟩ := Bool.and_eq_true_iff.mp hend
  obtain ⟨scanner, hsynced⟩ := hb.synced (by simp) hd
  obtain ⟨B, hB, hchain⟩ := hb.exists_board (D := settledChain) (by simp)
  have hown : B.ownNotes goldenRecipient = [5, 7] := by
    rw [← B.map_event_eventsIn, hb.first B hB, hchain]
    rfl
  have hheads : ∀ D ∈ ({youngChain, staleChain, settledChain} : Set (Chain UInt64)),
      D.headNumber ≤ settledChain.headNumber := by
    rintro D (rfl | rfl | rfl) <;> decide
  refine ⟨boards, d, scanner, B, hB, hb, hsynced, of_decide_eq_true hcursor, hown,
    hsynced.syncs sampleCrypto_suite hb.apart hb.first_le hb.committed
      (EngineStatus.isActive_iff.mp hactive) hB (hb.first B hB).symm ?_ (by rw [hown]; decide)⟩
  intro D hD
  rw [hchain]
  apply hheads
  rw [← hb.chains]
  exact Set.mem_image_of_mem _ hD

end Works.Wallet
