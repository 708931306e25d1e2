import Freecoin.MerkleRoots
import Freecoin.Sha256

/-!
# Where the Merkle reduction is defined

Within the range of its `int` the loop of `compute_merkle_root` is the pairwise reduction, streamed
through the hash in two updates.  A block without transactions has no slot to read the root from,
and the work buffer of the leaves is smaller than what `tx_serialize` makes of most transactions.
-/

namespace Freecoin

open Foundation

/-! ## Streaming the pairs -/

/-- A hash with the interface of `crypt_sha256_ctx`. -/
structure HashStream (Context : Type) where
  init : Context
  update : Context → List UInt8 → Context
  final : Context → Digest

namespace HashStream

variable {Context : Type} (stream : HashStream Context)

/-- The digest of two updates of a fresh context, with 32 bytes in the first one. -/
def twoUpdates (bytes : List UInt8) : Digest :=
  stream.final (stream.update (stream.update stream.init (bytes.take 32)) (bytes.drop 32))

/-- Two successive updates hash the concatenation. -/
def Concatenates (hash : List UInt8 → Digest) : Prop :=
  ∀ front back, stream.final (stream.update (stream.update stream.init front) back) =
    hash (front ++ back)

/-- The in-place loop ends, and `tree_hashes[0]` is then the root of the pairwise reduction. -/
def ReducesToRoot (hash : List UInt8 → Digest) (leaves : List Digest) : Prop :=
  ∃ root, merkleReduce stream.twoUpdates leaves = .ok root ∧
    PairTree.root (merkleNode hash) leaves = some root

variable {stream}

theorem merkleNode_twoUpdates {hash : List UInt8 → Digest}
    (concatenates : stream.Concatenates hash) :
    merkleNode stream.twoUpdates = merkleNode hash := by
  funext left right
  have front : left.toList.length = 32 := left.toList_length
  rw [merkleNode, merkleNode, twoUpdates, List.take_left' front, List.drop_left' front,
    concatenates]

theorem reducesToRoot_of_lt {hash : List UInt8 → Digest} (concatenates : stream.Concatenates hash)
    {leaves : List Digest} (nonempty : leaves ≠ []) (small : leaves.length < 2 ^ 31) :
    stream.ReducesToRoot hash leaves := by
  obtain ⟨root, reduced, root_eq⟩ := merkleReduce_eq stream.twoUpdates nonempty small
  rw [merkleNode_twoUpdates concatenates] at root_eq
  exact ⟨root, reduced, root_eq⟩

theorem not_reducesToRoot_of_le (stream : HashStream Context) (hash : List UInt8 → Digest)
    {leaves : List Digest} (beyond : 2 ^ 31 ≤ leaves.length) :
    ¬ stream.ReducesToRoot hash leaves := by
  rintro ⟨root, reduced, _⟩
  rw [merkleReduce_overflow _ beyond] at reduced
  cases reduced

end HashStream

/-- For every nonempty list of leaf digests that an `int` can count, and for no longer one, the loop
ends with the root of the pairwise reduction in its first slot. -/
theorem reducesToRoot_iff {Context : Type} {stream : HashStream Context}
    {hash : List UInt8 → Digest} (concatenates : stream.Concatenates hash) {leaves : List Digest}
    (nonempty : leaves ≠ []) :
    stream.ReducesToRoot hash leaves ↔ leaves.length < 2 ^ 31 := by
  constructor
  · intro reduces
    by_contra beyond
    exact HashStream.not_reducesToRoot_of_le stream hash (Nat.not_lt.mp beyond) reduces
  · exact HashStream.reducesToRoot_of_lt concatenates nonempty

/-- The repository's own hash. -/
def sha256Stream : HashStream CryptSha256Ctx where
  init := sha256Init
  update := sha256Update
  final := sha256Final

theorem sha256Stream_concatenates : sha256Stream.Concatenates sha256 := by
  intro front back
  rw [sha256, sha256Update_append]
  rfl

/-- Three leaves: the third is paired with itself. -/
theorem reducesToRoot_three :
    sha256Stream.Concatenates sha256 ∧
      sha256Stream.ReducesToRoot sha256 (List.replicate 3 zeroDigest) := by
  have nonempty : List.replicate 3 zeroDigest ≠ [] := by simp
  exact ⟨sha256Stream_concatenates,
    (reducesToRoot_iff sha256Stream_concatenates nonempty).mpr (by simp)⟩

/-- With 2^31 + 2 leaves the counter of the slots read leaves its range before the last pair. -/
theorem not_reducesToRoot_int :
    List.replicate (2 ^ 31 + 2) zeroDigest ≠ [] ∧
      ¬ sha256Stream.ReducesToRoot sha256 (List.replicate (2 ^ 31 + 2) zeroDigest) := by
  have length_eq : (List.replicate (2 ^ 31 + 2) zeroDigest).length = 2 ^ 31 + 2 :=
    List.length_replicate
  refine ⟨List.ne_nil_of_length_pos (by omega), ?_⟩
  exact HashStream.not_reducesToRoot_of_le sha256Stream sha256 (by omega)

/-! ## What the block has to fit -/

/-- Whatever the work buffer held, `compute_merkle_root` gets through its leaf loop and reads only
slots below `tx_count` that were filled, and what is hashed of each transaction is in the work
buffer. -/
structure MerkleAccessesSafe (sha256 : List UInt8 → Digest) (block : Block) : Prop where
  reads : ∀ txBuffer : Nat → UInt8,
    ∃ root, computeMerkleRoot sha256 block.txs block.header.txCount txBuffer = .ok root
  fits : ∀ tx ∈ block.txs.take block.header.txCount.toNat, (txComputeSize tx).toNat ≤ maxTxSize

/-- The accesses are safe exactly for the blocks that have a transaction, not too many for an `int`,
and none with more records than `tx_serialize` places in the work buffer. -/
theorem merkleAccessesSafe_iff (sha256 : List UInt8 → Digest) {block : Block}
    (counted : block.Counted) :
    MerkleAccessesSafe sha256 block ↔
      1 ≤ block.header.txCount.toNat ∧ block.header.txCount.toNat < 2 ^ 31 ∧
        ∀ tx ∈ block.txs, tx.FitsWorkBuffer := by
  constructor
  · intro safe
    exact (exists_computeMerkleRoot_iff (fun _ => 0) counted.txs counted.tx).mp (safe.reads _)
  · intro range
    refine ⟨fun txBuffer => ?_, fun tx member => ?_⟩
    · exact (exists_computeMerkleRoot_iff txBuffer counted.txs counted.tx).mpr range
    · exact (range.2.2 tx (List.mem_of_mem_take member)).size_le

/-- A block header for a number of transactions. -/
def countHeader (txCount : UInt32) : BlockHeader where
  version := 2
  time := 0
  height := 0
  prevHash := zeroDigest
  merkleRoot := zeroDigest
  target := { mantissa := 0, exponent := 1 }
  nonce := 0
  txCount := txCount

/-- An input that names the first output of a transaction whose id is zero. -/
def zeroInput : TxInput where
  outIndex := 0
  refTx := zeroDigest
  pubkey := List.Vector.replicate 128 0
  sig := List.Vector.replicate 128 0

/-- A transaction with a number of such inputs and no output. -/
def zeroInputsTx (inCount : UInt16) : Tx where
  header := { version := 2, inCount, outCount := 0, lockTime := 0 }
  ins := List.replicate inCount.toNat zeroInput
  outs := []

theorem zeroInputsTx_counted (inCount : UInt16) : (zeroInputsTx inCount).Counted :=
  ⟨List.length_replicate.symm, rfl⟩

/-- A block of one such transaction. -/
def zeroInputsBlock (inCount : UInt16) : Block where
  header := countHeader 1
  txs := [zeroInputsTx inCount]

theorem zeroInputsBlock_counted (inCount : UInt16) : (zeroInputsBlock inCount).Counted :=
  ⟨rfl, by simpa [zeroInputsBlock] using zeroInputsTx_counted inCount⟩

/-- Three inputs are written at 10, 2900 and 841000. -/
theorem merkleAccessesSafe_zeroInputsBlock_three :
    (zeroInputsBlock 3).Counted ∧ MerkleAccessesSafe sha256 (zeroInputsBlock 3) := by
  have counted := zeroInputsBlock_counted 3
  refine ⟨counted, (merkleAccessesSafe_iff sha256 counted).mpr ?_⟩
  refine ⟨by decide, by decide, fun tx member => ?_⟩
  rw [List.mem_singleton.mp member]
  decide

/-- A block without transactions reads the root from a slot that does not exist, a fourth input is
written behind the work buffer, and the bytes of 65535 inputs do not fit it. -/
theorem merkleAccessesSafe_fails :
    ¬ MerkleAccessesSafe sha256 { header := countHeader 0, txs := [] } ∧
      (zeroInputsBlock 4).Counted ∧ ¬ MerkleAccessesSafe sha256 (zeroInputsBlock 4) ∧
      (zeroInputsBlock 65535).Counted ∧
      ¬ (txComputeSize (zeroInputsTx 65535)).toNat ≤ maxTxSize := by
  have fourth : ¬ (zeroInputsTx 4).FitsWorkBuffer := by decide
  refine ⟨?_, zeroInputsBlock_counted 4, ?_, zeroInputsBlock_counted 65535, ?_⟩
  · intro safe
    obtain ⟨root, computed⟩ := safe.reads fun _ => 0
    cases computed
  · intro safe
    have fits := @exists_computeMerkleRoot_iff sha256 _ _ (fun _ => 0)
      (zeroInputsBlock_counted 4).txs (zeroInputsBlock_counted 4).tx
    exact fourth ((fits.mp (safe.reads _)).2.2 (zeroInputsTx 4) (List.mem_singleton.mpr rfl))
  · rw [toNat_txComputeSize]
    decide

end Freecoin
