import Works.Chainfold.FromStart
import Works.Chainfold.Converge
import Works.Sealring.Scan
import Works.Sealring.SealSpec

/-! # The pool of a shielded wallet

`shielded_wallet.rs`: a pool publishes envelopes that name no recipient, and is the source of the
driver of a wallet; it scans the blocks of a query with the wallet's key.  A board says what
letters are in the envelopes and to whom they were sealed.  What the pool answers is what the board
says about the wallet: its answers are those of the chain that holds the wallet's letters
(`Board.answer_eq`), and a scan of the whole pool finds the same letters (`Board.rescan_eq`). -/

namespace Works.Wallet

open Works.Lib Outcome Prog Works.Chainfold Engine Works.Sealring

/-! ### The pool -/

def POOL_AAD : List UInt8 := asBytes "examples.shielded-pool/v1"

def WINDOW : ℕ := 4

/-- `Payments`. -/
def Payments : Domain where
  Note := UInt64
  Error := Unit
  DOMAIN_TAG := "examples.shielded-wallet/v1"
  encodeNote note out := (.ok (), out ++ leBytes 8 note.toNat)
  decodeNote bytes := if bytes.length = 8 then .ok (UInt64.ofNat (ofLeBytes bytes)) else .error ()
  verify _ _ := true

theorem payments_roundTrips (note : UInt64) : Payments.RoundTrips note := by
  intro out bytes h
  cases h
  show (if (leBytes 8 note.toNat).length = 8 then
    (.ok (UInt64.ofNat (ofLeBytes (leBytes 8 note.toNat))) : Except Unit UInt64) else .error ()) = _
  rw [if_pos (length_leBytes 8 _), ofLeBytes_leBytes_of_lt (by simpa using note.toNat_lt),
    UInt64.ofNat_toNat]
  rfl

/-- `Block`.  Its number is its place in the pool. -/
structure Block (K : Kem) where
  hash : Hash
  notes : List (SealedNote K)

/-- `Pool`.  The scanner is an argument of what scans. -/
structure Pool (K : Kem) where
  firstBlock : ℕ
  blocks : List (Block K)

namespace Pool

variable {K : Kem}

/-- `header`. -/
def header (p : Pool K) (number : ℕ) : Option BlockRef :=
  if number < p.firstBlock then none
  else p.blocks[number - p.firstBlock]?.map fun b => ⟨number, b.hash⟩

/-- `head`.  An empty pool heads at the parent of its first block. -/
def head (p : Pool K) : BlockRef :=
  match p.blocks.getLast? with
  | none => ⟨p.firstBlock - 1, Vector.replicate 32 0⟩
  | some b => ⟨p.firstBlock + (p.blocks.length - 1), b.hash⟩

/-- The blocks of a query, with their numbers. -/
def queried (p : Pool K) (first last : ℕ) : List (Block K × ℕ) :=
  (p.blocks.zipIdx p.firstBlock).filter fun b => decide (first ≤ b.2 ∧ b.2 ≤ last)

/-- The positions of the envelopes of a block. -/
def positions (b : Block K × ℕ) : Outcome Empty (List (BlockRef × ℕ)) := do
  Outcome.require (b.1.notes.length ≤ U32_MAX + 1)
  pure (b.1.notes.zipIdx.map fun note => (⟨b.2, b.1.hash⟩, note.2))

/-- What a hit of the scan becomes; an envelope of the wallet that is malformed is a panic. -/
def event (positions : List (BlockRef × ℕ)) (hit : Hit Payments) :
    Outcome Empty (ChainEvent UInt64) := do
  let position ← Outcome.expect positions[hit.1]?
  match hit.2 with
  | .ok note => pure ⟨position.1, position.2, note⟩
  | .error _ => Outcome.panic

/-- `events_in`: one scan over the blocks of the query. -/
def eventsIn (C : Crypto) (p : Pool K) (scanner : Scanner K) (first last : ℕ) :
    Outcome Empty (List (ChainEvent UInt64) × Scanner K) := do
  let found ← (p.queried first last).mapM positions
  let (hits, scanner) ←
    scanner.scan C K Payments ((p.queried first last).flatMap fun b => b.1.notes) POOL_AAD
  let events ← hits.mapM (event found.flatten)
  pure (events, scanner)

/-- `Source for Pool`: the answer to a call, and the scanner it leaves. -/
def answer (C : Crypto) (p : Pool K) :
    (q : Query) → Scanner K → Outcome Empty (Answer UInt64 q × Scanner K)
  | .head, scanner => .ok (some p.head, scanner)
  | .headerAt number, scanner => .ok (some (p.header number), scanner)
  | .eventsIn first last, scanner =>
      p.eventsIn C scanner first last >>= fun found => .ok (some found.1, found.2)
  | .horizon, scanner => .ok (.genesis, scanner)
  | .window, scanner => .ok (WINDOW, scanner)

end Pool

/-! ### Letters -/

/-- What somebody seals, and to whom. -/
structure Letter (K : Kem) where
  recipient : Recipient K
  note : UInt64
  rng : K.Rng

/-- `note`. -/
def Letter.sealed {K : Kem} (C : Crypto) (l : Letter K) : Outcome SealError (SealedNote K) :=
  sealNote C K Payments l.recipient.pk l.note POOL_AAD l.rng

/-- A block with the letters in its envelopes. -/
structure Posting (C : Crypto) (K : Kem) where
  hash : Hash
  letters : List (Letter K)
  notes : List (SealedNote K)
  seals : List.Forall₂ (fun l e => l.sealed C = .ok e) letters notes
  short : letters.length ≤ U32_MAX + 1

/-- A pool with the letters in its envelopes.  It has a block, or a first block with a parent. -/
structure Board (C : Crypto) (K : Kem) where
  firstBlock : ℕ
  postings : List (Posting C K)
  nonempty : 0 < firstBlock ∨ postings ≠ []
  firstU64 : firstBlock ≤ U64_MAX
  bounded : firstBlock + postings.length ≤ U64_MAX + 1

section Board

variable {C : Crypto} {K : Kem} [DecidableEq K.PublicKey]

/-- The letters of a block that are for the wallet, under their indexes. -/
def Posting.own (w : Recipient K) (b : Posting C K) : List (ℕ × UInt64) :=
  (b.letters.zipIdx.filter fun l => decide (l.1.recipient.pk = w.pk)).map fun l => (l.2, l.1.note)

omit [DecidableEq K.PublicKey] in
theorem pairwise_zipIdx {α : Type} (l : List α) : l.zipIdx.Pairwise fun a b => a.2 < b.2 := by
  rw [← List.pairwise_map (f := Prod.snd), List.zipIdx_map_snd]
  exact List.pairwise_lt_range' 1

/-- A block below the first one of a pool, with the hash that an empty pool heads at. -/
def emptyBlock : ChainBlock UInt64 := ⟨Vector.replicate 32 0, []⟩

/-- The letters for the wallet, as a chain that is empty below the first block. -/
def Board.chain (w : Recipient K) (B : Board C K) : Chain UInt64 where
  blocks := List.replicate B.firstBlock emptyBlock ++ B.postings.map fun b => ⟨b.hash, b.own w⟩
  nonempty := by
    rcases B.nonempty with h | h
    · simp [h.ne']
    · simp [h]
  bounded := by simpa using B.bounded
  sorted := by
    intro x hx
    rcases List.mem_append.mp hx with hx | hx
    · rw [List.eq_of_mem_replicate hx]
      exact List.Pairwise.nil
    · obtain ⟨b, -, rfl⟩ := List.mem_map.mp hx
      rw [Posting.own, List.map_map, List.pairwise_map]
      exact (pairwise_zipIdx b.letters).filter _

omit [DecidableEq K.PublicKey] in
/-- What the pool shows of a board. -/
def Board.pool (B : Board C K) : Pool K where
  firstBlock := B.firstBlock
  blocks := B.postings.map fun b => ⟨b.hash, b.notes⟩

end Board

/-! ### What the wallet relies on -/

/-- The suite of a wallet: the Kem, the AEAD, and the constants. -/
structure Suite (C : Crypto) (K : Kem) (w : Recipient K) : Prop where
  asserts : SuiteAsserts K Payments
  epkSized : K.EpkSized
  aead : C.AeadCorrect
  inPlace : C.InPlaceAgrees
  batch : K.BatchPointwise
  encodes : Function.Injective fun pk => K.epkBytes (K.encodePk pk)
  decapsulates : ∀ rng, K.Decapsulates w rng

/-- What the senders of some letters derive from, and the wallet when it tries their envelopes. -/
def inputs (C : Crypto) (K : Kem) (w : Recipient K) (letters : Set (Letter K)) :
    Set (List UInt8 × List UInt8) :=
  {q | ∃ l ∈ letters, q = sealedInput Payments l.recipient l.rng ∨
    ∃ e, l.sealed C = .ok e ∧ q ∈ Derives K Payments w e}

section Opening

variable {C : Crypto} {K : Kem} {w : Recipient K} (hsuite : Suite C K w)

include hsuite

/-- A letter for the wallet opens. -/
theorem Suite.open_own {l : Letter K} {e : SealedNote K} (h : l.sealed C = .ok e)
    (hpk : l.recipient.pk = w.pk) : openNote C K Payments w e POOL_AAD = .ok (some l.note) := by
  unfold Letter.sealed at h
  rw [hpk] at h
  exact open_sealed hsuite.asserts hsuite.epkSized hsuite.aead (hsuite.decapsulates l.rng)
    (payments_roundTrips l.note) rfl h

/-- Another one does not. -/
theorem Suite.open_other {letters : Set (Letter K)}
    (hapart : Set.InjOn C.commitOf (inputs C K w letters)) {l : Letter K} (hl : l ∈ letters)
    {e : SealedNote K} (h : l.sealed C = .ok e) (hpk : l.recipient.pk ≠ w.pk) :
    openNote C K Payments w e POOL_AAD = .ok none := by
  refine open_stranger hsuite.asserts hsuite.epkSized hsuite.aead h ?_ (hapart.mono ?_)
  · rw [l.recipient.pkEncoded_eq, w.pkEncoded_eq]
    exact fun heq => hpk (hsuite.encodes heq)
  · rintro q (rfl | hq)
    · exact ⟨l, hl, .inl rfl⟩
    · exact ⟨l, hl, .inr ⟨e, h, hq⟩⟩

end Opening

/-! ### One scan for a query -/

section Scan

variable {C : Crypto} {K : Kem} [DecidableEq K.PublicKey] {w : Recipient K}

/-- The letters of the wallet among some, at their positions. -/
def ownEvents (w : Recipient K) (found : List ((BlockRef × ℕ) × Letter K)) :
    List (ChainEvent UInt64) :=
  (found.filter fun x => decide (x.2.recipient.pk = w.pk)).map fun x => ⟨x.1.1, x.1.2, x.2.note⟩

/-- The hit of a note. -/
def noteHit (index : ℕ) (note : UInt64) : Hit Payments := (index, .ok note)

/-- The hits of a scan: the letters for the wallet, under their indexes. -/
theorem hits_eq {α : Type} (hsuite : Suite C K w) {letters : Set (Letter K)}
    (hapart : Set.InjOn C.commitOf (inputs C K w letters)) (letter : α → Letter K) {xs : List α}
    {notes : List (SealedNote K)}
    (h : List.Forall₂ (fun x e => letter x ∈ letters ∧ (letter x).sealed C = .ok e) xs notes)
    (k : ℕ) : ((notes.zipIdx k).map fun p => (p.2, p.1)).filterMap (hitOf C K Payments w POOL_AAD) =
      ((xs.zipIdx k).filter fun x => decide ((letter x.1).recipient.pk = w.pk)).map fun x =>
        noteHit x.2 (letter x.1).note := by
  induction h generalizing k with
  | nil => rfl
  | @cons x e xs notes hx _ ih =>
      obtain ⟨hl, hsealed⟩ := hx
      rw [List.zipIdx_cons, List.map_cons, List.zipIdx_cons]
      by_cases hpk : (letter x).recipient.pk = w.pk
      · have hhit : hitOf C K Payments w POOL_AAD (k, e) = some (k, .ok (letter x).note) := by
          simp only [hitOf, hsuite.open_own hsealed hpk]
        rw [List.filterMap_cons_some hhit, ih, List.filter_cons_of_pos (by simpa using hpk),
          List.map_cons]
        rfl
      · have hhit : hitOf C K Payments w POOL_AAD (k, e) = none := by
          simp only [hitOf, hsuite.open_other hapart hl hsealed hpk]
        rw [List.filterMap_cons_none hhit, ih, List.filter_cons_of_neg (by simpa using hpk)]

/-- What a scan of sealed envelopes finds, whatever earlier scans left in the buffers. -/
theorem scan_hits {α : Type} (hsuite : Suite C K w) {letters : Set (Letter K)}
    (hapart : Set.InjOn C.commitOf (inputs C K w letters)) (letter : α → Letter K) {xs : List α}
    {notes : List (SealedNote K)}
    (h : List.Forall₂ (fun x e => letter x ∈ letters ∧ (letter x).sealed C = .ok e) xs notes)
    {scanner : Scanner K} (hscanner : scanner.recipient = w) :
    ∃ buffers, scanner.scan C K Payments notes POOL_AAD =
      .ok ((xs.zipIdx.filter fun x => decide ((letter x.1).recipient.pk = w.pk)).map fun x =>
        noteHit x.2 (letter x.1).note, ⟨w, buffers⟩) := by
  obtain ⟨buffers, hscan⟩ := scan_openAll (D := Payments) hsuite.batch hsuite.inPlace scanner
    notes POOL_AAD
  rw [hscanner, openAll_of_returns _ fun item _ =>
    openNote_returns hsuite.asserts hsuite.epkSized w item.2 POOL_AAD] at hscan
  refine ⟨buffers, ?_⟩
  rw [hscan, ← hits_eq hsuite hapart letter h 0]
  rfl

omit [DecidableEq K.PublicKey] in
/-- Indexes do not matter to a filter of what they index. -/
theorem map_filter_zipIdx {α β : Type} (p : α → Bool) (f : α → β) (l : List α) (k : ℕ) :
    ((l.zipIdx k).filter fun x => p x.1).map (fun x => f x.1) = (l.filter p).map f := by
  conv_rhs => rw [← List.zipIdx_map_fst k l, List.filter_map, List.map_map]
  rfl

/-- What the pool makes of the hits. -/
theorem mapM_event (found : List ((BlockRef × ℕ) × Letter K)) :
    ((found.zipIdx.filter fun x => decide (x.1.2.recipient.pk = w.pk)).map fun x =>
      noteHit x.2 x.1.2.note).mapM (Pool.event (found.map Prod.fst)) =
        .ok (ownEvents w found) := by
  have hevent : ∀ x ∈ found.zipIdx.filter fun x => decide (x.1.2.recipient.pk = w.pk),
      Pool.event (found.map Prod.fst) (noteHit x.2 x.1.2.note) =
        .ok ⟨x.1.1.1, x.1.1.2, x.1.2.note⟩ := by
    intro x hx
    have hget := List.mem_zipIdx_iff_getElem?.mp (List.mem_of_mem_filter hx)
    unfold Pool.event noteHit
    rw [List.getElem?_map, hget]
    rfl
  rw [List.mapM_map, ownEvents, ← map_filter_zipIdx
    (fun x => decide (x.2.recipient.pk = w.pk))
    (fun x => (⟨x.1.1, x.1.2, x.2.note⟩ : ChainEvent UInt64)) found 0]
  exact mapM_ok _ hevent

end Scan

/-! ### What the pool answers -/

/-- Where what is left out adds nothing. -/
theorem flatMap_filter_of_nil {α β : Type} {p : α → Bool} {g : α → List β} (l : List α)
    (h : ∀ x ∈ l, p x = false → g x = []) : (l.filter p).flatMap g = l.flatMap g := by
  induction l with
  | nil => rfl
  | cons x l ih =>
      have ih := ih fun y hy => h y (List.mem_cons_of_mem x hy)
      cases hp : p x with
      | true => rw [List.filter_cons_of_pos hp, List.flatMap_cons, List.flatMap_cons, ih]
      | false =>
          rw [List.filter_cons_of_neg (by simp [hp]), List.flatMap_cons,
            h x List.mem_cons_self hp, ih, List.nil_append]

/-- The numbers of a query that a pool has. -/
theorem filter_range' (s n first last : ℕ) :
    ((List.range' s n).filter fun k => decide (first ≤ k ∧ k ≤ last)) =
      (List.range' first (last + 1 - first)).filter fun k => decide (s ≤ k ∧ k < s + n) := by
  refine List.Pairwise.eq_of_mem_iff (r := (· < ·)) ((List.pairwise_lt_range' 1).filter _)
    ((List.pairwise_lt_range' 1).filter _) ?_
  intro k
  simp only [List.mem_filter, List.mem_range'_1, decide_eq_true_eq]
  omega

section Answers

variable {C : Crypto} {K : Kem} [DecidableEq K.PublicKey] {w : Recipient K} {B : Board C K}

omit [DecidableEq K.PublicKey] in
/-- The letters of a board. -/
def Board.letters (B : Board C K) : Set (Letter K) := {l | ∃ b ∈ B.postings, l ∈ b.letters}

omit [DecidableEq K.PublicKey] in
/-- The postings of a query, with their numbers. -/
def Board.queried (B : Board C K) (first last : ℕ) : List (Posting C K × ℕ) :=
  (B.postings.zipIdx B.firstBlock).filter fun b => decide (first ≤ b.2 ∧ b.2 ≤ last)

omit [DecidableEq K.PublicKey] in
/-- The letters of a posting, at their positions. -/
def Posting.found (b : Posting C K × ℕ) : List ((BlockRef × ℕ) × Letter K) :=
  b.1.letters.zipIdx.map fun l => ((⟨b.2, b.1.hash⟩, l.2), l.1)

omit [DecidableEq K.PublicKey] in
theorem Board.queried_pool (first last : ℕ) :
    B.pool.queried first last =
      (B.queried first last).map fun b => (⟨b.1.hash, b.1.notes⟩, b.2) := by
  unfold Pool.queried Board.queried Board.pool
  dsimp only
  rw [List.zipIdx_map, List.filter_map]
  rfl

omit [DecidableEq K.PublicKey] in
theorem Board.mem_queried {first last : ℕ} {b : Posting C K × ℕ} (h : b ∈ B.queried first last) :
    B.firstBlock ≤ b.2 ∧ B.postings[b.2 - B.firstBlock]? = some b.1 :=
  List.mem_zipIdx_iff_le_and_getElem?_sub.mp (List.mem_filter.mp h).1

omit [DecidableEq K.PublicKey] in
/-- The positions of a posting are those of its letters. -/
theorem Posting.positions_eq (b : Posting C K × ℕ) :
    Pool.positions (⟨b.1.hash, b.1.notes⟩, b.2) =
      (.ok ((Posting.found b).map Prod.fst) : Outcome Empty _) := by
  have hlen := b.1.seals.length_eq
  unfold Pool.positions Posting.found
  rw [require_pos (hlen ▸ b.1.short), ok_bind, List.map_map, pure_eq_ok]
  congr 1
  refine List.ext_getElem (by simp [hlen]) ?_
  intro i h₁ h₂
  simp

omit [DecidableEq K.PublicKey] in
/-- The envelopes of a posting hold its letters. -/
theorem Posting.found_sealed {b : Posting C K × ℕ} {letters : Set (Letter K)}
    (h : ∀ l ∈ b.1.letters, l ∈ letters) :
    List.Forall₂ (fun x e => x.2 ∈ letters ∧ x.2.sealed C = .ok e) (Posting.found b) b.1.notes := by
  have hgo : ∀ (k : ℕ) (ls : List (Letter K)) (es : List (SealedNote K)),
      (∀ l ∈ ls, l ∈ letters) → List.Forall₂ (fun l e => l.sealed C = .ok e) ls es →
      List.Forall₂ (fun (x : (BlockRef × ℕ) × Letter K) e => x.2 ∈ letters ∧ x.2.sealed C = .ok e)
        ((ls.zipIdx k).map fun l => ((⟨b.2, b.1.hash⟩, l.2), l.1)) es := by
    intro k ls es hls hseals
    induction hseals generalizing k with
    | nil => exact .nil
    | cons hl _ ih =>
        exact .cons ⟨hls _ List.mem_cons_self, hl⟩
          (ih (k + 1) fun l hl => hls l (List.mem_cons_of_mem _ hl))
  exact hgo 0 _ _ h b.1.seals

theorem Board.length_chain : (B.chain w).blocks.length = B.firstBlock + B.postings.length := by
  simp [Board.chain]

theorem Board.chain_below {number : ℕ} (h : number < B.firstBlock) :
    (B.chain w).blocks[number]? = some emptyBlock := by
  unfold Board.chain
  rw [List.getElem?_append_left (by simpa using h)]
  simp [h]

theorem Board.chain_from {number : ℕ} (h : B.firstBlock ≤ number) :
    (B.chain w).blocks[number]? =
      B.postings[number - B.firstBlock]?.map fun b => ⟨b.hash, b.own w⟩ := by
  unfold Board.chain
  rw [List.getElem?_append_right (by simpa using h), List.length_replicate, List.getElem?_map]

/-- The letters of the wallet in a posting are the events of its block. -/
theorem Board.ownEvents_found {b : Posting C K × ℕ} (hfirst : B.firstBlock ≤ b.2)
    (h : B.postings[b.2 - B.firstBlock]? = some b.1) :
    ownEvents w (Posting.found b) = (B.chain w).blockEvents b.2 := by
  have hblock : (B.chain w).blocks[b.2]? = some ⟨b.1.hash, b.1.own w⟩ := by
    rw [Board.chain_from hfirst, h]
    rfl
  unfold ownEvents Posting.found Chain.blockEvents
  rw [hblock, List.filter_map, List.map_map, Option.map_some, Option.getD_some]
  dsimp only
  rw [Posting.own, List.map_map]
  rfl

/-- There are none outside the pool. -/
theorem Board.blockEvents_outside {number : ℕ}
    (h : ¬ (B.firstBlock ≤ number ∧ number < B.firstBlock + B.postings.length)) :
    (B.chain w).blockEvents number = [] := by
  unfold Chain.blockEvents
  by_cases hfirst : number < B.firstBlock
  · rw [Board.chain_below hfirst]
    rfl
  · rw [List.getElem?_eq_none (by rw [Board.length_chain]; omega)]
    rfl

/-- The letters of the wallet in a query are the events of its chain. -/
theorem Board.ownEvents_queried (first last : ℕ) :
    ownEvents w ((B.queried first last).flatMap Posting.found) =
      (B.chain w).eventsIn first last := by
  have hnumbers : (B.queried first last).map Prod.snd =
      (List.range' first (last + 1 - first)).filter fun k =>
        decide (B.firstBlock ≤ k ∧ k < B.firstBlock + B.postings.length) := by
    rw [← filter_range', ← List.zipIdx_map_snd, List.filter_map]
    rfl
  calc ownEvents w ((B.queried first last).flatMap Posting.found)
      = (B.queried first last).flatMap fun b => ownEvents w (Posting.found b) := by
        unfold ownEvents
        rw [List.filter_flatMap, List.map_flatMap]
    _ = (B.queried first last).flatMap fun b => (B.chain w).blockEvents b.2 :=
        List.flatMap_congr fun b hb =>
          Board.ownEvents_found (Board.mem_queried hb).1 (Board.mem_queried hb).2
    _ = ((B.queried first last).map Prod.snd).flatMap (B.chain w).blockEvents := by
        rw [List.flatMap_map]
    _ = (B.chain w).eventsIn first last := by
        rw [hnumbers]
        refine flatMap_filter_of_nil _ fun n _ hn => ?_
        exact Board.blockEvents_outside (of_decide_eq_false hn)

omit [DecidableEq K.PublicKey] in
theorem forall₂_flatMap {α β γ : Type} {R : β → γ → Prop} {f : α → List β} {g : α → List γ}
    (l : List α) (h : ∀ x ∈ l, List.Forall₂ R (f x) (g x)) :
    List.Forall₂ R (l.flatMap f) (l.flatMap g) := by
  induction l with
  | nil => exact .nil
  | cons x l ih =>
      rw [List.flatMap_cons, List.flatMap_cons]
      exact List.rel_append (h x List.mem_cons_self)
        (ih fun y hy => h y (List.mem_cons_of_mem x hy))

/-- What a query finds: `events_in` returns, whatever earlier scans left in the buffers, and
it yields the letters sealed to the wallet in the blocks of the query, at the positions they were
published at, and nothing else. -/
theorem Board.eventsIn_eq (hsuite : Suite C K w)
    (hapart : Set.InjOn C.commitOf (inputs C K w B.letters)) (scanner : Scanner K)
    (hscanner : scanner.recipient = w) (first last : ℕ) :
    ∃ scanner', B.pool.eventsIn C scanner first last =
        .ok ((B.chain w).eventsIn first last, scanner') ∧ scanner'.recipient = w := by
  have hsealed : List.Forall₂ (fun (x : (BlockRef × ℕ) × Letter K) e =>
      x.2 ∈ B.letters ∧ x.2.sealed C = .ok e) ((B.queried first last).flatMap Posting.found)
        ((B.queried first last).flatMap fun b => b.1.notes) :=
    forall₂_flatMap _ fun b hb => Posting.found_sealed fun l hl =>
      ⟨b.1, List.mem_of_getElem? (Board.mem_queried hb).2, hl⟩
  have hpositions : (B.pool.queried first last).mapM Pool.positions =
      (.ok ((B.queried first last).map fun b => (Posting.found b).map Prod.fst) :
        Outcome Empty _) := by
    rw [Board.queried_pool, List.mapM_map]
    exact mapM_ok _ fun b _ => Posting.positions_eq b
  have hnotes : ((B.pool.queried first last).flatMap fun b => b.1.notes) =
      (B.queried first last).flatMap fun b => b.1.notes := by
    rw [Board.queried_pool, List.flatMap_map]
  have hflatten : ((B.queried first last).map fun b => (Posting.found b).map Prod.fst).flatten =
      ((B.queried first last).flatMap Posting.found).map Prod.fst := by
    rw [List.map_flatMap, List.flatMap_def]
  obtain ⟨buffers, hscan⟩ := scan_hits hsuite hapart Prod.snd hsealed hscanner
  refine ⟨⟨w, buffers⟩, ?_, rfl⟩
  unfold Pool.eventsIn
  rw [hpositions, ok_bind, hnotes, hscan, hflatten, ok_bind]
  dsimp only
  rw [mapM_event, ok_bind, Board.ownEvents_queried]
  rfl

/-! ### The pool as a source -/

theorem Board.head_pool (B : Board C K) : B.pool.head = (B.chain w).head := by
  have hlast : ∀ b, (B.chain w).blocks.getLast? = some b →
      (B.chain w).head = ⟨B.firstBlock + B.postings.length - 1, b.hash⟩ := by
    intro b hb
    rw [List.getLast?_eq_some_getLast (B.chain w).nonempty, Option.some.injEq] at hb
    rw [Chain.head, Chain.headNumber, B.length_chain, hb]
  unfold Pool.head Board.pool
  rcases List.eq_nil_or_concat B.postings with h | ⟨postings, b, h⟩
  · rw [hlast emptyBlock ?_]
    · simp [h, emptyBlock]
    · have hfirst : B.firstBlock ≠ 0 := fun h0 => by
        rcases B.nonempty with hpos | hne
        · exact hpos.ne' h0
        · exact hne h
      simp [Board.chain, h, List.getLast?_replicate, hfirst]
  · rw [hlast ⟨b.hash, b.own w⟩ (by simp [Board.chain, h])]
    simp [h]

theorem Board.header_pool (B : Board C K) {number : ℕ} (h : B.firstBlock ≤ number) :
    B.pool.header number = (B.chain w).refAt number := by
  unfold Pool.header Chain.refAt Board.pool
  rw [if_neg (not_lt.mpr h), Board.chain_from h]
  simp [Function.comp_def]

/-- Every call returns, whatever earlier scans left in the buffers. -/
theorem Board.answer_returns (hsuite : Suite C K w)
    (hapart : Set.InjOn C.commitOf (inputs C K w B.letters)) (q : Query) (scanner : Scanner K)
    (hscanner : scanner.recipient = w) :
    ∃ r scanner', B.pool.answer C q scanner = .ok (r, scanner') ∧ scanner'.recipient = w := by
  cases q with
  | eventsIn first last =>
      obtain ⟨scanner', hscan, hscanner'⟩ := B.eventsIn_eq hsuite hapart scanner hscanner first last
      refine ⟨some ((B.chain w).eventsIn first last), scanner', ?_, hscanner'⟩
      rw [Pool.answer, hscan, ok_bind]
  | head => exact ⟨_, scanner, rfl, hscanner⟩
  | headerAt number => exact ⟨_, scanner, rfl, hscanner⟩
  | horizon => exact ⟨_, scanner, rfl, hscanner⟩
  | window => exact ⟨_, scanner, rfl, hscanner⟩

/-- The pool answers as a script that stands on the chain of the wallet's letters, unless it is
asked for a header below its first block. -/
theorem Board.answer_eq (hsuite : Suite C K w)
    (hapart : Set.InjOn C.commitOf (inputs C K w B.letters)) {q : Query}
    (hq : q.From B.firstBlock) (scanner : Scanner K) (hscanner : scanner.recipient = w) :
    ∃ scanner', B.pool.answer C q scanner =
      .ok (reply .genesis WINDOW (true, B.chain w) q, scanner') ∧ scanner'.recipient = w := by
  cases q with
  | eventsIn first last =>
      obtain ⟨scanner', hscan, hscanner'⟩ := B.eventsIn_eq hsuite hapart scanner hscanner first last
      refine ⟨scanner', ?_, hscanner'⟩
      rw [Pool.answer, hscan, ok_bind]
      rfl
  | head =>
      refine ⟨scanner, ?_, hscanner⟩
      rw [Pool.answer, B.head_pool (w := w)]
      rfl
  | headerAt number =>
      refine ⟨scanner, ?_, hscanner⟩
      rw [Pool.answer, B.header_pool (w := w) hq]
      rfl
  | horizon => exact ⟨scanner, rfl, hscanner⟩
  | window => exact ⟨scanner, rfl, hscanner⟩

end Answers

/-! ### The balance -/

def U128_MAX : ℕ := 2 ^ 128 - 1

/-- `Balance`. -/
structure Balance where
  total : ℕ
  notes : ℕ
deriving DecidableEq, Repr

/-- `credit`; the total may have changed when the count overflows. -/
def Balance.credit (b : Balance) (value : UInt64) : Balance × Bool :=
  if b.total + value.toNat ≤ U128_MAX then
    if b.notes + 1 ≤ U64_MAX then (⟨b.total + value.toNat, b.notes + 1⟩, true)
    else ({ b with total := b.total + value.toNat }, false)
  else (b, false)

/-- `Fold for Balance`. -/
def balance : Fold Balance UInt64 String where
  apply b _ value :=
    ((b.credit value).1, if (b.credit value).2 then .ok () else .error (.halt "balance overflow"))

/-- The balance of some notes. -/
def balanceOf (notes : List UInt64) : Balance := ⟨(notes.map UInt64.toNat).sum, notes.length⟩

theorem balanceOf_total_le (notes : List UInt64) :
    (balanceOf notes).total ≤ notes.length * U64_MAX := by
  refine (List.sum_le_card_nsmul _ U64_MAX ?_).trans_eq ?_
  · intro n hn
    obtain ⟨value, -, rfl⟩ := List.mem_map.mp hn
    exact Nat.le_of_lt_succ value.toNat_lt
  · rw [List.length_map, smul_eq_mul]

/-- A credit below the limit of the count does not overflow. -/
theorem credit_balanceOf {notes : List UInt64} (value : UInt64) (h : notes.length < U64_MAX) :
    (balanceOf notes).credit value = (balanceOf (notes ++ [value]), true) := by
  have htotal : (balanceOf notes).total + value.toNat ≤ U128_MAX := by
    have hle := balanceOf_total_le notes
    have hvalue := value.toNat_lt
    have hmul : notes.length * U64_MAX ≤ U64_MAX * U64_MAX := Nat.mul_le_mul_right _ h.le
    unfold U64_MAX U128_MAX at *
    omega
  have hnotes : (balanceOf notes).notes + 1 ≤ U64_MAX := h
  unfold Balance.credit
  rw [if_pos htotal, if_pos hnotes]
  simp [balanceOf]

/-- A wallet that folds fewer than `u64::MAX` notes holds their sum. -/
theorem foldOver_balance (events : List (ChainEvent UInt64)) :
    ∀ notes : List UInt64, notes.length + events.length ≤ U64_MAX →
      foldOver balance (balanceOf notes) events = balanceOf (notes ++ events.map (·.event)) := by
  induction events with
  | nil =>
      intro notes _
      rw [List.map_nil, List.append_nil]
      rfl
  | cons x events ih =>
      intro notes h
      rw [List.length_cons] at h
      have hcredit : (balance.apply (balanceOf notes) x.pos x.event).1 =
          balanceOf (notes ++ [x.event]) := by
        show ((balanceOf notes).credit x.event).1 = _
        rw [credit_balanceOf x.event (by omega)]
      have ih := ih (notes ++ [x.event]) (by rw [List.length_append, List.length_singleton]; omega)
      show foldOver balance (balance.apply (balanceOf notes) x.pos x.event).1 events = _
      rw [hcredit, ih, List.append_assoc, List.singleton_append, List.map_cons]

/-- Such a wallet never halts. -/
theorem balance_unhalted {D : Chain UInt64} {start : ℕ}
    (h : (D.eventsIn start D.headNumber).length ≤ U64_MAX) :
    Unhalted balance D start (balanceOf []) := by
  intro pre x post hsplit err herr
  rw [hsplit, List.length_append, List.length_cons] at h
  have hpre : pre.length + 1 ≤ U64_MAX := by omega
  rw [foldOver_balance pre [] (by rw [List.length_nil]; omega), List.nil_append] at herr
  have hok : (balance.apply (balanceOf (pre.map (·.event))) x.pos x.event).2 = .ok () := by
    unfold balance
    dsimp only
    rw [credit_balanceOf x.event (by rw [List.length_map]; exact hpre)]
    rfl
  rw [hok] at herr
  cases herr

/-! ### Scanning a whole pool -/

/-- One hit of `rescan`; a malformed envelope and an overflow are panics. -/
def creditHit (b : Balance) (hit : Hit Payments) : Outcome Empty Balance :=
  match hit.2 with
  | .ok value => if (b.credit value).2 then pure (b.credit value).1 else Outcome.panic
  | .error _ => Outcome.panic

/-- `rescan`: the balance of a wallet that scans every published envelope. -/
def Pool.rescan {K : Kem} (C : Crypto) (p : Pool K) (w : Recipient K) : Outcome Empty Balance := do
  let (hits, _) ← (Scanner.new w).scan C K Payments (p.blocks.flatMap fun b => b.notes) POOL_AAD
  hits.foldlM creditHit ⟨0, 0⟩

section Rescan

variable {C : Crypto} {K : Kem} [DecidableEq K.PublicKey] {w : Recipient K} {B : Board C K}

/-- The notes for the wallet on a board. -/
def Board.ownNotes (w : Recipient K) (B : Board C K) : List UInt64 :=
  ((B.postings.flatMap fun b => b.letters).filter fun l => decide (l.recipient.pk = w.pk)).map
    fun l => l.note

/-- What the wallet makes of such hits. -/
theorem foldlM_creditHit {α : Type} (index : α → ℕ) (note : α → UInt64) (l : List α) :
    ∀ notes : List UInt64, notes.length + l.length ≤ U64_MAX →
      (l.map fun x => noteHit (index x) (note x)).foldlM creditHit (balanceOf notes) =
        .ok (balanceOf (notes ++ l.map note)) := by
  induction l with
  | nil =>
      intro notes _
      rw [List.map_nil, List.map_nil, List.append_nil]
      rfl
  | cons x l ih =>
      intro notes h
      rw [List.length_cons] at h
      have hcredit : creditHit (balanceOf notes) (noteHit (index x) (note x)) =
          .ok (balanceOf (notes ++ [note x])) := by
        unfold creditHit noteHit
        dsimp only
        rw [credit_balanceOf (note x) (by omega)]
        rfl
      rw [List.map_cons, List.foldlM_cons, hcredit, ok_bind,
        ih (notes ++ [note x]) (by rw [List.length_append, List.length_singleton]; omega),
        List.map_cons, List.append_assoc, List.singleton_append]

/-- A scan of the whole pool yields the balance of the letters. -/
theorem Board.rescan_eq (hsuite : Suite C K w)
    (hapart : Set.InjOn C.commitOf (inputs C K w B.letters))
    (hle : (B.ownNotes w).length ≤ U64_MAX) :
    B.pool.rescan C w = .ok (balanceOf (B.ownNotes w)) := by
  have hsealed : List.Forall₂ (fun l e => l ∈ B.letters ∧ l.sealed C = .ok e)
      (B.postings.flatMap fun b => b.letters) (B.postings.flatMap fun b => b.notes) := by
    refine forall₂_flatMap _ fun b hb => ?_
    have hmem : ∀ l ∈ b.letters, l ∈ B.letters := fun l hl => ⟨b, hb, hl⟩
    exact List.forall₂_iff_zip.mpr ⟨b.seals.length_eq, fun hz =>
      ⟨hmem _ (List.of_mem_zip hz).1, (List.forall₂_iff_zip.mp b.seals).2 hz⟩⟩
  have hnotes : (B.pool.blocks.flatMap fun b => b.notes) =
      B.postings.flatMap fun b => b.notes := by
    unfold Board.pool
    rw [List.flatMap_map]
  have hown : ((B.postings.flatMap fun b => b.letters).zipIdx.filter fun l =>
      decide (l.1.recipient.pk = w.pk)).map (fun l => l.1.note) = B.ownNotes w :=
    map_filter_zipIdx (fun l : Letter K => decide (l.recipient.pk = w.pk)) (fun l => l.note) _ 0
  obtain ⟨buffers, hscan⟩ := scan_hits hsuite hapart id hsealed
    (show (Scanner.new w).recipient = w from rfl)
  have hcredit := foldlM_creditHit Prod.snd (fun l => l.1.note)
    ((B.postings.flatMap fun b => b.letters).zipIdx.filter fun l =>
      decide (l.1.recipient.pk = w.pk)) [] (by
    rw [List.length_nil, Nat.zero_add, ← List.length_map fun l : Letter K × ℕ => l.1.note, hown]
    exact hle)
  unfold Pool.rescan
  rw [hnotes, hscan, ok_bind]
  exact hcredit.trans (by rw [hown]; rfl)

/-- The events of the wallet's chain are the notes on the board. -/
theorem Board.map_event_eventsIn :
    ((B.chain w).eventsIn B.firstBlock (B.chain w).headNumber).map (·.event) = B.ownNotes w := by
  have hall : B.queried B.firstBlock (B.chain w).headNumber = B.postings.zipIdx B.firstBlock := by
    refine List.filter_eq_self.mpr fun b hb => ?_
    obtain ⟨hfirst, hget⟩ := List.mem_zipIdx_iff_le_and_getElem?_sub.mp hb
    have hlt := (List.getElem?_eq_some_iff.mp hget).1
    have hlen := B.length_chain (w := w)
    have hhead : b.2 ≤ (B.chain w).headNumber := by
      unfold Chain.headNumber
      omega
    simpa using ⟨hfirst, hhead⟩
  have hfound : ∀ b : Posting C K × ℕ, (Posting.found b).map Prod.snd = b.1.letters := by
    intro b
    rw [Posting.found, List.map_map]
    exact List.zipIdx_map_fst 0 _
  have hletters : ((B.postings.zipIdx B.firstBlock).flatMap Posting.found).map Prod.snd =
      B.postings.flatMap fun b => b.letters := by
    rw [List.map_flatMap]
    simp only [hfound]
    rw [← List.flatMap_map (f := Prod.fst) (g := fun b : Posting C K => b.letters),
      List.zipIdx_map_fst]
  rw [← Board.ownEvents_queried, hall, Board.ownNotes, ← hletters]
  unfold ownEvents
  rw [List.map_map, List.filter_map, List.map_map]
  rfl

end Rescan

end Works.Wallet
