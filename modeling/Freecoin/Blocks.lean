import Freecoin.TransactionCodec

/-!
# Blocks

The block structures of `blocks.h` with the header codec, the walkers of a raw block and the size
and hash functions of `blocks.c`.
-/

namespace Freecoin

open Foundation

/-- The compact target `uint8_t target[2]`: `target[0]` is the mantissa and `target[1]` the
one-based position of the byte it stands in. -/
structure Target where
  mantissa : UInt8
  exponent : UInt8
  deriving DecidableEq, Repr

/-- `block_header_t`. -/
structure BlockHeader where
  version : UInt16
  time : UInt32
  height : UInt32
  prevHash : Digest
  merkleRoot : Digest
  target : Target
  nonce : UInt32
  txCount : UInt32
  deriving DecidableEq

/-- `block_t`. -/
structure Block where
  header : BlockHeader
  txs : List Tx
  deriving DecidableEq

/-- The counts of a block are the lengths of its arrays. -/
structure Block.Counted (block : Block) : Prop where
  txs : block.header.txCount.toNat = block.txs.length
  tx : ∀ tx ∈ block.txs, tx.Counted

/-! ## Positions and sizes -/

def posBlockHeaderVersion : Nat := 0
def posBlockHeaderTime : Nat := 2
def posBlockHeaderHeight : Nat := 6
def posBlockHeaderPrevHash : Nat := 10
def posBlockHeaderMerkleRoot : Nat := 42
def posBlockHeaderTarget : Nat := 74
def posBlockHeaderNonce : Nat := 76
def posBlockHeaderTxCount : Nat := 80
def sizeBlockHeader : Nat := 84
def posBlockHeader : Nat := 0
def posBlockBody : Nat := sizeBlockHeader

/-- Size of the buffers a block file is read into. -/
def maxBlockSize : Nat := 1073741824

/-! ## Header -/

/-- Write a block header to `dst[pos..]`. -/
def blockHeaderSerialize (src : BlockHeader) (dst : Buffer) (pos : Nat) : Run Buffer := do
  let dst ← dst.store (pos + posBlockHeaderVersion) (ustob src.version)
  let dst ← dst.store (pos + posBlockHeaderTime) (uitob src.time)
  let dst ← dst.store (pos + posBlockHeaderHeight) (uitob src.height)
  let dst ← dst.store (pos + posBlockHeaderPrevHash) src.prevHash.toList
  let dst ← dst.store (pos + posBlockHeaderMerkleRoot) src.merkleRoot.toList
  let dst ← dst.store (pos + posBlockHeaderTarget) [src.target.mantissa, src.target.exponent]
  let dst ← dst.store (pos + posBlockHeaderNonce) (uitob src.nonce)
  dst.store (pos + posBlockHeaderTxCount) (uitob src.txCount)

/-- Read the block header behind a pointer. -/
def blockHeaderDeserialize (src : List UInt8) : Run BlockHeader := do
  let version ← btous (src.drop posBlockHeaderVersion)
  let time ← btoui (src.drop posBlockHeaderTime)
  let height ← btoui (src.drop posBlockHeaderHeight)
  let prevHash ← copyOut 32 (src.drop posBlockHeaderPrevHash)
  let merkleRoot ← copyOut 32 (src.drop posBlockHeaderMerkleRoot)
  let mantissa ← fetch (src.drop posBlockHeaderTarget) 0
  let exponent ← fetch (src.drop posBlockHeaderTarget) 1
  let nonce ← btoui (src.drop posBlockHeaderNonce)
  let txCount ← btoui (src.drop posBlockHeaderTxCount)
  let target : Target := { mantissa, exponent }
  return { version, time, height, prevHash, merkleRoot, target, nonce, txCount }

/-! ## Whole blocks -/

/-- The transaction loop of `m_block_deserialize`: the cursor is handed on as it is. -/
def blockDeserializeTxs (src : List UInt8) (cursor : UInt64) : (i remaining : Nat) → Run (List Tx)
  | _, 0 => .ok []
  | i, remaining + 1 => do
      let tx ← mTxDeserialize (src.drop cursor.toNat)
      let i ← intAdd i 1
      let txs ← blockDeserializeTxs src cursor i remaining
      return tx :: txs

/-- `m_block_deserialize`. -/
def mBlockDeserialize (src : List UInt8) : Run Block := do
  let header ← blockHeaderDeserialize (src.drop posBlockHeader)
  let txs ← blockDeserializeTxs src (.ofNat posBlockBody) 0 header.txCount.toNat
  return { header, txs }

/-! ## Sizes -/

/-- The loop of `block_compute_size`; the `int` accumulator receives an unsigned sum. -/
def blockComputeSizeLoop (txs : List Tx) :
    (i remaining : Nat) → (size : UInt32) → Run UInt32
  | _, 0, size => .ok size
  | i, remaining + 1, size => do
      let tx ← fetch txs i
      let i ← intAdd i 1
      blockComputeSizeLoop txs i remaining (size + txComputeSize tx)

/-- `block_compute_size`. -/
def blockComputeSize (block : Block) : Run UInt32 :=
  blockComputeSizeLoop block.txs 0 block.header.txCount.toNat (.ofNat sizeBlockHeader)

/-- The loop of `block_raw_compute_size`. -/
def blockRawComputeSizeLoop (block : List UInt8) :
    (remaining : Nat) → (cursor : UInt32) → Run UInt32
  | 0, cursor => .ok cursor
  | remaining + 1, cursor => do
      let size ← txRawComputeSize (block.drop cursor.toNat)
      blockRawComputeSizeLoop block remaining (cursor + size)

/-- `block_raw_compute_size`: the count is held in an `int`, so the loop does not run when its top
bit is set. -/
def blockRawComputeSize (block : List UInt8) : Run UInt32 := do
  let txCount ← btoui (block.drop posBlockHeaderTxCount)
  blockRawComputeSizeLoop block txCount.toInt32.toInt.toNat (.ofNat sizeBlockHeader)

/-! ## Hashes -/

/-- `block_raw_compute_hash`, for a given digest function. -/
def blockRawComputeHash (sha256 : List UInt8 → Digest) (block : List UInt8) : Run Digest := do
  let header ← copyOut sizeBlockHeader (block.drop posBlockHeader)
  return sha256 header.toList

/-! ## The header format -/

/-- The 84 bytes of a block header. -/
def BlockHeader.bytes (header : BlockHeader) : List UInt8 :=
  ustob header.version ++ (uitob header.time ++ (uitob header.height ++
    (header.prevHash.toList ++ (header.merkleRoot.toList ++
      ([header.target.mantissa, header.target.exponent] ++
        (uitob header.nonce ++ uitob header.txCount))))))

/-- `block_compute_hash` is not implemented; it is taken to be the digest of what
`block_header_serialize` writes, which `blockHeaderSerialize_eq` identifies. -/
def blockComputeHash (sha256 : List UInt8 → Digest) (block : Block) : Digest :=
  sha256 block.header.bytes

@[simp] theorem BlockHeader.length_bytes (header : BlockHeader) :
    header.bytes.length = sizeBlockHeader := by
  simp [bytes, sizeBlockHeader]

/-- What `block_header_serialize` writes, in its order. -/
def BlockHeader.fields (src : BlockHeader) : List Field :=
  [⟨posBlockHeaderVersion, ustob src.version⟩,
    ⟨posBlockHeaderTime, uitob src.time⟩,
    ⟨posBlockHeaderHeight, uitob src.height⟩,
    ⟨posBlockHeaderPrevHash, src.prevHash.toList⟩,
    ⟨posBlockHeaderMerkleRoot, src.merkleRoot.toList⟩,
    ⟨posBlockHeaderTarget, [src.target.mantissa, src.target.exponent]⟩,
    ⟨posBlockHeaderNonce, uitob src.nonce⟩,
    ⟨posBlockHeaderTxCount, uitob src.txCount⟩]

theorem blockHeaderSerialize_eq_storeFields (src : BlockHeader) (dst : Buffer) (pos : Nat) :
    blockHeaderSerialize src dst pos = storeFields pos src.fields dst := by
  simp only [blockHeaderSerialize, BlockHeader.fields, storeFields, Run.bind_ok]

theorem BlockHeader.tiles_fields (src : BlockHeader) : Tiles 0 src.fields sizeBlockHeader := by
  simp [fields, Tiles, posBlockHeaderVersion, posBlockHeaderTime, posBlockHeaderHeight,
    posBlockHeaderPrevHash, posBlockHeaderMerkleRoot, posBlockHeaderTarget, posBlockHeaderNonce,
    posBlockHeaderTxCount, sizeBlockHeader]

theorem BlockHeader.flatMap_fields (src : BlockHeader) :
    src.fields.flatMap Field.bytes = src.bytes := by
  simp [fields, bytes]

/-- The header serializer writes the canonical bytes, over any prior content. -/
theorem blockHeaderSerialize_eq {src : BlockHeader} {dst : Buffer} {pos : Nat}
    (inside : pos + sizeBlockHeader ≤ dst.size) :
    blockHeaderSerialize src dst pos = .ok (dst.write pos src.bytes) := by
  rw [blockHeaderSerialize_eq_storeFields, src.tiles_fields.storeFields_eq inside,
    src.flatMap_fields, Nat.add_zero]

end Freecoin
