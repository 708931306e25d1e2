import Mathlib.Algebra.Group.Action.Defs
import Mathlib.Algebra.Order.BigOperators.Group.List
import Freecoin.Walkers

/-!
# Stored blocks

A block in its file.  What `m_io_load_block` makes of the file has the right header but the first
transaction as often as the block has transactions, and a file that is longer than the buffer it is
read into is not loaded at all.
-/

namespace Freecoin

open Foundation

namespace Block

/-- The bytes a block is stored as. -/
def bytes (block : Block) : List UInt8 := block.header.bytes ++ block.txs.flatMap Tx.bytes

/-- The inputs of a block, in order. -/
def inputs (block : Block) : List TxInput := block.txs.flatMap Tx.ins

/-- How many inputs each transaction of a block has. -/
def layout (block : Block) : List Nat := block.txs.map fun tx => tx.ins.length

theorem length_inputs (block : Block) : block.inputs.length = block.layout.sum := by
  rw [inputs, List.length_flatMap, layout]

theorem length_bytes (block : Block) :
    block.bytes.length = sizeBlockHeader + (block.txs.map fun tx => tx.bytes.length).sum := by
  rw [bytes, List.length_append, BlockHeader.length_bytes, List.length_flatMap]

/-- Every transaction takes at least the bytes of its header. -/
theorem length_txs_le (block : Block) :
    sizeBlockHeader + sizeTxHeader * block.txs.length ≤ block.bytes.length := by
  have each : ∀ size ∈ block.txs.map fun tx => tx.bytes.length, sizeTxHeader ≤ size := by
    intro size member
    obtain ⟨tx, _, rfl⟩ := List.mem_map.mp member
    rw [Tx.length_bytes, sizeTxHeader]
    omega
  have total := List.card_nsmul_le_sum _ sizeTxHeader each
  rw [List.length_map, smul_eq_mul] at total
  rw [length_bytes, Nat.mul_comm]
  exact Nat.add_le_add_left total _

/-- A block that fits the buffers block files are read into has fewer transactions than an `int`
can count. -/
theorem length_txs_lt {block : Block} (fits : block.bytes.length ≤ maxBlockSize) :
    block.txs.length < 2 ^ 31 := by
  have long := block.length_txs_le
  rw [sizeBlockHeader, sizeTxHeader] at long
  rw [maxBlockSize] at fits
  omega

/-- What `m_io_load_block` makes of a stored block: its first transaction, as often as it has
transactions. -/
def loaded (block : Block) : Block where
  header := block.header
  txs := block.txs.head?.elim [] (List.replicate block.txs.length)

end Block

section Loads

variable {disk : Disk} {hash : Digest} {block : Block}

theorem mIoLoadBlock_eq (counted : block.Counted)
    (stored : blockFile disk hash = some block.bytes)
    (fits : block.bytes.length ≤ maxBlockSize) :
    mIoLoadBlock disk hash = .ok (some block.loaded) := by
  let raw : RawBlock :=
    { header := block.header, txs := block.txs, trailing := [], count := counted.txs
      counted := counted.tx }
  have bytes_eq : block.bytes = raw.bytes := by
    simp only [RawBlock.bytes, Block.bytes, raw, List.append_nil]
  rw [mIoLoadBlock_of_some stored fits, bytes_eq,
    mBlockDeserialize_bytes raw (Block.length_txs_lt fits)]
  rfl

/-- A stored block is loaded exactly when it fits the buffer. -/
theorem mIoLoadBlock_eq_ok {result : Option Block} (counted : block.Counted)
    (stored : blockFile disk hash = some block.bytes) :
    mIoLoadBlock disk hash = .ok result ↔
      block.bytes.length ≤ maxBlockSize ∧ result = some block.loaded := by
  constructor
  · intro returned
    cases result with
    | none =>
        rw [mIoLoadBlock_eq_none, stored] at returned
        cases returned
    | some other =>
        obtain ⟨content, found, fits, _⟩ := mIoLoadBlock_eq_some.mp returned
        obtain rfl := Option.some.inj (found.symm.trans stored)
        exact ⟨fits, Except.ok.inj (returned.symm.trans (mIoLoadBlock_eq counted stored fits))⟩
  · rintro ⟨fits, rfl⟩
    exact mIoLoadBlock_eq counted stored fits

end Loads

/-! ## Directories of blocks -/

/-- A data directory that holds blocks under their digests. -/
def keepBlocks (sha256 : List UInt8 → Digest) (blocks : List Block) : Disk :=
  { Disk.empty with
    blocks := fun name =>
      (blocks.find? fun block => blockFileName (blockComputeHash sha256 block) = name).map
        Block.bytes }

theorem blockFile_keepBlocks {sha256 : List UInt8 → Digest} {blocks : List Block} {block : Block}
    (different : blocks.Pairwise fun left right =>
      blockComputeHash sha256 left ≠ blockComputeHash sha256 right)
    (member : block ∈ blocks) :
    blockFile (keepBlocks sha256 blocks) (blockComputeHash sha256 block) = some block.bytes := by
  obtain ⟨before, behind, rfl⟩ := List.append_of_mem member
  have found : (before ++ block :: behind).find?
      (fun other => blockFileName (blockComputeHash sha256 other) =
        blockFileName (blockComputeHash sha256 block)) = some block := by
    refine List.find?_eq_some_iff_append.mpr ⟨by simp, before, behind, rfl, fun other earlier => ?_⟩
    have apart := (List.pairwise_append.mp different).2.2 other earlier block List.mem_cons_self
    have names : blockFileName (blockComputeHash sha256 other) ≠
        blockFileName (blockComputeHash sha256 block) := fun same =>
      apart (blockFileName_injective same)
    simpa using names
  exact congrArg (Option.map Block.bytes) found

end Freecoin
