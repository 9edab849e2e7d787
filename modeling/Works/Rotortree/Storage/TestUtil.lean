import Works.Lib.Bytes
import Works.Lib.Crc32
import Works.Rotortree.Storage.Wal

/-! # Fixtures

A concrete `Wire` for hashes of 32 bytes: the fixed-width little-endian encodings that `wincode`
derives, with the discriminants of the enumerations in front.  A batch whose length does not fit
its prefix has an encoding of its own, so that every entry reads back (`wincode_lawful`).  The
hasher is `XorHasher` of `test_util.rs`. -/

namespace Works.Rotortree

open Works.Lib

/-- A hash of 32 bytes. -/
abbrev Hash32 := Vector UInt8 32

/-- `<[u8; 32]>::try_from`. -/
def toHash32 (bytes : List UInt8) : Option Hash32 :=
  if h : bytes.length = 32 then some ⟨bytes.toArray, h⟩ else none

theorem toHash32_toList (h : Hash32) : toHash32 h.toList = some h := by
  have hlen : h.toList.length = 32 := by simp
  rw [toHash32, dif_pos hlen]
  congr 1

/-- The hashes in `n` times 32 bytes. -/
def getHashes : ℕ → List UInt8 → Option (List Hash32)
  | 0, _ => some []
  | n + 1, bytes => do
      let (hash, bytes) ← getBytes 32 bytes
      let hash ← toHash32 hash
      let hashes ← getHashes n bytes
      some (hash :: hashes)

/-- The bytes of a list of hashes. -/
def putHashes (hashes : List Hash32) : List UInt8 := hashes.flatMap fun h => h.toList

theorem getHashes_putHashes (hashes : List Hash32) :
    getHashes hashes.length (putHashes hashes) = some hashes := by
  induction hashes with
  | nil => rfl
  | cons h hashes ih =>
      have hlen : h.toList.length = 32 := by simp
      simp only [putHashes, List.flatMap_cons, List.length_cons, getHashes,
        getBytes_append _ hlen, bind, Option.bind_some, toHash32_toList]
      rw [putHashes] at ih
      rw [ih, Option.bind_some]

theorem length_putHashes (hashes : List Hash32) : (putHashes hashes).length = hashes.length * 32 := by
  induction hashes with
  | nil => rfl
  | cons h hashes ih =>
      rw [putHashes] at ih
      rw [putHashes, List.flatMap_cons, List.length_append, ih, Vector.length_toList,
        List.length_cons]
      omega

/-- `WalHeader` on the wire. -/
def walHeaderCodec : Codec WalHeader where
  serialize h := leBytes 4 0 ++ (h.magic ++ (leBytes 4 h.n ++ (leBytes 4 h.maxDepth ++ [])))
  deserialize bytes := do
    let (_, bytes) ← getWord 4 bytes
    let (magic, bytes) ← getBytes 4 bytes
    let (n, bytes) ← getWord 4 bytes
    let (maxDepth, _) ← getWord 4 bytes
    some ⟨magic, n, maxDepth⟩

/-- `WalPayload` on the wire. -/
def putPayload : WalPayload Hash32 → List UInt8
  | .single leaf => leBytes 4 0 ++ leaf.toList
  | .batch leaves =>
      if leaves.length < 256 ^ 8 then
        leBytes 4 1 ++ (leBytes 4 1 ++ (leBytes 8 leaves.length ++ putHashes leaves))
      else leBytes 4 2 ++ putHashes leaves

/-- `WalPayload` from the wire. -/
def getPayload (bytes : List UInt8) : Option (WalPayload Hash32) := do
  let (tag, bytes) ← getWord 4 bytes
  if tag = 0 then (toHash32 bytes).map .single
  else if tag = 1 then do
    let (_, bytes) ← getWord 4 bytes
    let (len, bytes) ← getWord 8 bytes
    (getHashes len bytes).map .batch
  else (getHashes (bytes.length / 32) bytes).map .batch

/-- `WalEntry` on the wire. -/
def walEntryCodec : Codec (WalEntry Hash32) where
  serialize e := leBytes 4 0 ++ (leBytes 8 e.seq ++ putPayload e.payload)
  deserialize bytes := do
    let (_, bytes) ← getWord 4 bytes
    let (seq, bytes) ← getWord 8 bytes
    let payload ← getPayload bytes
    some ⟨seq, payload⟩

/-- `HeaderFrame` on the wire. -/
def headerFrameCodec : Codec HeaderFrame where
  serialize h := leBytes 4 0 ++ (h.magic ++ (leBytes 4 h.n ++ (leBytes 4 h.maxDepth ++
    (leBytes 4 h.chunkSize ++ []))))
  deserialize bytes := do
    let (_, bytes) ← getWord 4 bytes
    let (magic, bytes) ← getBytes 4 bytes
    let (n, bytes) ← getWord 4 bytes
    let (maxDepth, bytes) ← getWord 4 bytes
    let (chunkSize, _) ← getWord 4 bytes
    some ⟨magic, n, maxDepth, chunkSize⟩

/-- `MetaFrame` on the wire. -/
def metaFrameCodec : Codec (MetaFrame Hash32) where
  serialize m := leBytes 4 0 ++ (m.magic ++ (leBytes 4 m.n ++ (leBytes 4 m.maxDepth ++
    (leBytes 8 m.lastWalSeq ++ (leBytes 8 m.leafCount ++ (leBytes 4 m.depth ++
      m.rootHash.toList))))))
  deserialize bytes := do
    let (_, bytes) ← getWord 4 bytes
    let (magic, bytes) ← getBytes 4 bytes
    let (n, bytes) ← getWord 4 bytes
    let (maxDepth, bytes) ← getWord 4 bytes
    let (lastWalSeq, bytes) ← getWord 8 bytes
    let (leafCount, bytes) ← getWord 8 bytes
    let (depth, bytes) ← getWord 4 bytes
    let rootHash ← toHash32 bytes
    some ⟨magic, n, maxDepth, lastWalSeq, leafCount, depth, rootHash⟩

/-- `wincode` and `crc_fast`. -/
def wincode : Wire Hash32 where
  crc := crc32c
  walHeader := walHeaderCodec
  walEntry := walEntryCodec
  headerFrame := headerFrameCodec
  metaFrame := metaFrameCodec

theorem getPayload_putPayload (p : WalPayload Hash32) : getPayload (putPayload p) = some p := by
  have h0 : (0 : ℕ) < 256 ^ 4 := by decide
  have h1 : (1 : ℕ) < 256 ^ 4 := by decide
  have h2 : (2 : ℕ) < 256 ^ 4 := by decide
  unfold getPayload putPayload
  cases p with
  | single leaf =>
      simp only [getWord_append _ h0, bind, Option.bind_some, if_pos, toHash32_toList,
        Option.map_some]
  | batch leaves =>
      dsimp only
      split_ifs with hlen
      · simp only [getWord_append _ h1, bind, Option.bind_some, one_ne_zero, if_false, if_true,
          getWord_append _ hlen, getHashes_putHashes, Option.map_some]
      · have hdiv : (putHashes leaves).length / 32 = leaves.length := by
          rw [length_putHashes, Nat.mul_div_cancel _ (by decide)]
        simp only [getWord_append _ h2, bind, Option.bind_some, OfNat.ofNat_ne_zero, if_false,
          OfNat.ofNat_ne_one, hdiv, getHashes_putHashes, Option.map_some]

theorem wincode_lawful : wincode.Lawful where
  walHeader := by
    rintro h ⟨hmagic, hn, hd⟩
    have h0 : (0 : ℕ) < 256 ^ 4 := by decide
    constructor
    · simp only [wincode, walHeaderCodec, getWord_append _ h0, bind, Option.bind_some,
        getBytes_append _ hmagic, getWord_append _ (show h.n < 256 ^ 4 from hn),
        getWord_append _ (show h.maxDepth < 256 ^ 4 from hd)]
    · simp only [wincode, walHeaderCodec, List.length_append, length_leBytes, hmagic,
        List.length_nil]
      decide
  walEntry := by
    intro e hseq
    have h0 : (0 : ℕ) < 256 ^ 4 := by decide
    simp only [wincode, walEntryCodec, getWord_append _ h0, bind, Option.bind_some,
      getWord_append _ (show e.seq < 256 ^ 8 from hseq), getPayload_putPayload]
  single := by
    intro seq leaf
    simp only [wincode, walEntryCodec, putPayload, List.length_append, length_leBytes,
      Vector.length_toList]
    decide
  headerFrame := by
    rintro h ⟨hmagic, hn, hd, hc⟩
    have h0 : (0 : ℕ) < 256 ^ 4 := by decide
    constructor
    · simp only [wincode, headerFrameCodec, getWord_append _ h0, bind, Option.bind_some,
        getBytes_append _ hmagic, getWord_append _ (show h.n < 256 ^ 4 from hn),
        getWord_append _ (show h.maxDepth < 256 ^ 4 from hd),
        getWord_append _ (show h.chunkSize < 256 ^ 4 from hc)]
    · simp only [wincode, headerFrameCodec, List.length_append, length_leBytes, hmagic,
        List.length_nil]
      decide
  metaFrame := by
    rintro m ⟨hmagic, hn, hd, hseq, hleaf, hdepth⟩
    have h0 : (0 : ℕ) < 256 ^ 4 := by decide
    constructor
    · simp only [wincode, metaFrameCodec, getWord_append _ h0, bind, Option.bind_some,
        getBytes_append _ hmagic, getWord_append _ (show m.n < 256 ^ 4 from hn),
        getWord_append _ (show m.maxDepth < 256 ^ 4 from hd),
        getWord_append _ (show m.lastWalSeq < 256 ^ 8 from hseq),
        getWord_append _ (show m.leafCount < 256 ^ 8 from hleaf),
        getWord_append _ (show m.depth < 256 ^ 4 from hdepth), toHash32_toList]
    · simp only [wincode, metaFrameCodec, List.length_append, length_leBytes, hmagic,
        Vector.length_toList]
      decide

/-- `XorHasher`. -/
def xorHasher : Hasher Hash32 := Hasher.scalar fun children =>
  children.foldl (fun acc h => Vector.zipWith (· ^^^ ·) acc h) (Vector.replicate 32 0)

/-- `leaf`: the bytes of a number. -/
def testLeaf (n : ℕ) : Hash32 := Vector.ofFn fun i => if i.val = 0 then UInt8.ofNat n else 0

/-- A hash whose bytes are all the same. -/
def byteHash (n : ℕ) : Hash32 := Vector.replicate 32 (UInt8.ofNat n)

/-- `XorHasher` on hashes of this kind, fast to evaluate. -/
def byteHasher : Hasher Hash32 := Hasher.scalar fun children =>
  Vector.replicate 32 (children.foldl (fun acc h => acc ^^^ h[0]) 0)

end Works.Rotortree
