import Freecoin.Bignum

/-!
# Stored blocks and heads

The files `io.c` keeps, as maps from file name to content, with the loaders that read them.  The
head operations are declared but not implemented; they are taken to keep one record per head.
-/

namespace Freecoin

open Foundation

/-- `head_t`. -/
structure Head where
  height : UInt32
  chained : UInt8
  hash : Digest
  deriving DecidableEq

/-- The name of a file inside a directory. -/
abbrev FileName := List Char

/-- The data directory: block files, transaction index files and head records. -/
structure Disk where
  blocks : FileName → Option (List UInt8)
  txindex : FileName → Option (List UInt8)
  heads : List Head

/-- A data directory with nothing in it. -/
def Disk.empty : Disk where
  blocks _ := none
  txindex _ := none
  heads := []

/-- The file name of a block: its hash in hexadecimal, up to the terminating zero. -/
def blockFileName (hash : Digest) : FileName :=
  (btoascii hash.toList).takeWhile (· ≠ '\x00')

theorem blockFileName_eq (hash : Digest) :
    blockFileName hash ++ ['\x00'] = btoascii hash.toList := by
  have digits : ∀ text : List Char, (∀ digit ∈ text, digit ≠ '\x00') →
      (text ++ ['\x00']).takeWhile (· ≠ '\x00') = text := by
    intro text nonzero
    rw [List.takeWhile_append_of_pos (fun digit member => by simpa using nonzero digit member)]
    simp
  rw [blockFileName, btoascii, digits]
  intro digit member
  obtain ⟨byte, _, digit_mem⟩ := List.mem_flatMap.mp member
  simp only [List.mem_cons, List.not_mem_nil, or_false] at digit_mem
  obtain rfl | rfl := digit_mem
  · exact nibbleToHexc_ne_zero _
  · exact nibbleToHexc_ne_zero _

/-- Blocks with different hashes are kept in different files. -/
theorem blockFileName_injective : Function.Injective blockFileName := by
  intro left right same
  have texts : btoascii left.toList = btoascii right.toList := by
    rw [← blockFileName_eq, ← blockFileName_eq, same]
  exact List.Vector.eq _ _ (btoascii_injective texts)

/-! ## Heads -/

/-- `io_head_delete`. -/
def ioHeadDelete (disk : Disk) (hash : Digest) : Disk :=
  { disk with heads := disk.heads.filter (·.hash ≠ hash) }

/-- `io_head_update`, replacing the record that was loaded from position `index`. -/
def ioHeadUpdate (disk : Disk) (index : Nat) (head : Head) : Disk :=
  { disk with heads := disk.heads.set index head }

/-! ## Blocks -/

/-- The content of a block's file. -/
def blockFile (disk : Disk) (hash : Digest) : Option (List UInt8) :=
  disk.blocks (blockFileName hash)

/-- `io_load_block_raw` for a destination of `size` bytes: what `fread` puts at its front, which is
the whole file. -/
def ioLoadBlockRaw (disk : Disk) (hash : Digest) (size : Nat) : Run (Option (List UInt8)) :=
  match blockFile disk hash with
  | none => .ok none
  | some content => if content.length ≤ size then .ok (some content) else .error .outOfBounds

/-- `io_load_block_header`. -/
def ioLoadBlockHeader (disk : Disk) (hash : Digest) : Run (Option BlockHeader) := do
  match ← ioLoadBlockRaw disk hash maxBlockSize with
  | none => return none
  | some buffer => do
      let header ← blockHeaderDeserialize buffer
      return some header

/-- `m_io_load_block`. -/
def mIoLoadBlock (disk : Disk) (hash : Digest) : Run (Option Block) := do
  match ← ioLoadBlockRaw disk hash maxBlockSize with
  | none => return none
  | some buffer => do
      let block ← mBlockDeserialize buffer
      return some block

section Loads

variable {disk : Disk} {hash : Digest} {size : Nat} {content : List UInt8}

theorem ioLoadBlockRaw_of_none (absent : blockFile disk hash = none) :
    ioLoadBlockRaw disk hash size = .ok none := by
  rw [ioLoadBlockRaw, absent]

theorem ioLoadBlockRaw_of_some (found : blockFile disk hash = some content)
    (fits : content.length ≤ size) : ioLoadBlockRaw disk hash size = .ok (some content) := by
  simp only [ioLoadBlockRaw, found, if_pos fits]

/-- A load returns nothing for a missing file, and a file only if the destination holds it. -/
theorem ioLoadBlockRaw_eq_ok {loaded : Option (List UInt8)} :
    ioLoadBlockRaw disk hash size = .ok loaded ↔
      blockFile disk hash = loaded ∧ ∀ content ∈ loaded, content.length ≤ size := by
  rw [ioLoadBlockRaw]
  cases found : blockFile disk hash with
  | none =>
      simp only [Except.ok.injEq]
      constructor
      · rintro rfl
        simp
      · exact fun same => same.1
  | some content =>
      rw [Run.ite_eq_ok]
      constructor
      · rintro ⟨fits, rfl⟩
        exact ⟨rfl, by simpa using fits⟩
      · rintro ⟨rfl, fits⟩
        exact ⟨fits content rfl, rfl⟩

/-- What is loaded depends on the file alone. -/
theorem ioLoadBlockRaw_congr {other : Disk} (same : blockFile other hash = blockFile disk hash) :
    ioLoadBlockRaw other hash size = ioLoadBlockRaw disk hash size := by
  rw [ioLoadBlockRaw, ioLoadBlockRaw, same]

theorem ioLoadBlockHeader_of_none (absent : blockFile disk hash = none) :
    ioLoadBlockHeader disk hash = .ok none := by
  rw [ioLoadBlockHeader, ioLoadBlockRaw_of_none absent]
  rfl

theorem ioLoadBlockHeader_of_some (found : blockFile disk hash = some content)
    (fits : content.length ≤ maxBlockSize) :
    ioLoadBlockHeader disk hash = some <$> blockHeaderDeserialize content := by
  rw [ioLoadBlockHeader, ioLoadBlockRaw_of_some found fits]
  rfl

theorem mIoLoadBlock_of_some (found : blockFile disk hash = some content)
    (fits : content.length ≤ maxBlockSize) :
    mIoLoadBlock disk hash = some <$> mBlockDeserialize content := by
  rw [mIoLoadBlock, ioLoadBlockRaw_of_some found fits]
  rfl

/-- What a header is loaded from. -/
theorem ioLoadBlockHeader_eq_some {header : BlockHeader} :
    ioLoadBlockHeader disk hash = .ok (some header) ↔
      ∃ content, blockFile disk hash = some content ∧ content.length ≤ maxBlockSize ∧
        blockHeaderDeserialize content = .ok header := by
  simp only [ioLoadBlockHeader, Run.bind_eq_ok, ioLoadBlockRaw_eq_ok]
  constructor
  · rintro ⟨_ | content, ⟨found, fits⟩, loaded⟩
    · cases loaded
    · simp only [Run.bind_eq_ok, Run.pure_eq_ok, Except.ok.injEq, Option.some.injEq] at loaded
      obtain ⟨_, loaded, rfl⟩ := loaded
      exact ⟨content, found, fits content rfl, loaded⟩
  · rintro ⟨content, found, fits, loaded⟩
    exact ⟨some content, ⟨found, by simpa using fits⟩, by simp [loaded]⟩

theorem ioLoadBlockHeader_eq_none :
    ioLoadBlockHeader disk hash = .ok none ↔ blockFile disk hash = none := by
  constructor
  · intro loaded
    rw [ioLoadBlockHeader, Run.bind_eq_ok] at loaded
    obtain ⟨_ | content, raw, rest⟩ := loaded
    · exact (ioLoadBlockRaw_eq_ok.mp raw).1
    · obtain ⟨header, _, contradiction⟩ := Run.bind_eq_ok.mp rest
      cases contradiction
  · exact ioLoadBlockHeader_of_none

theorem mIoLoadBlock_eq_none :
    mIoLoadBlock disk hash = .ok none ↔ blockFile disk hash = none := by
  constructor
  · intro loaded
    rw [mIoLoadBlock, Run.bind_eq_ok] at loaded
    obtain ⟨_ | content, raw, rest⟩ := loaded
    · exact (ioLoadBlockRaw_eq_ok.mp raw).1
    · obtain ⟨block, _, contradiction⟩ := Run.bind_eq_ok.mp rest
      cases contradiction
  · intro absent
    rw [mIoLoadBlock, ioLoadBlockRaw_of_none absent]
    rfl

/-- What a block is loaded from. -/
theorem mIoLoadBlock_eq_some {block : Block} :
    mIoLoadBlock disk hash = .ok (some block) ↔
      ∃ content, blockFile disk hash = some content ∧ content.length ≤ maxBlockSize ∧
        mBlockDeserialize content = .ok block := by
  simp only [mIoLoadBlock, Run.bind_eq_ok, ioLoadBlockRaw_eq_ok]
  constructor
  · rintro ⟨_ | content, ⟨found, fits⟩, loaded⟩
    · cases loaded
    · simp only [Run.bind_eq_ok, Run.pure_eq_ok, Except.ok.injEq, Option.some.injEq] at loaded
      obtain ⟨_, loaded, rfl⟩ := loaded
      exact ⟨content, found, fits content rfl, loaded⟩
  · rintro ⟨content, found, fits, loaded⟩
    exact ⟨some content, ⟨found, by simpa using fits⟩, by simp [loaded]⟩

end Loads

/-! ## The transaction index -/

/-- An `int` used as an array index. -/
def intIndex (value : UInt32) : Run Nat :=
  if value.toNat < 2 ^ 31 then .ok value.toNat else .error .outOfBounds

/-- The index loop of `io_save_block_raw`, with the position and digest of each transaction it
hashes.  The cursor is an `int`. -/
def txindexLoop (sha256 : List UInt8 → Digest) (src : List UInt8) :
    (remaining : Nat) → (cursor : UInt32) → Run (List (Nat × Digest))
  | 0, _ => .ok []
  | remaining + 1, cursor => do
      let position ← intIndex cursor
      let digest ← txRawComputeHash sha256 (src.drop position)
      let size ← txRawComputeSize (src.drop position)
      let rest ← txindexLoop sha256 src remaining (cursor + size)
      return (position, digest) :: rest

/-- The records `io_save_block_raw` writes to the transaction index of a block. -/
def txindexRecords (sha256 : List UInt8 → Digest) (src : List UInt8) :
    Run (List (Nat × Digest)) := do
  let txCount ← btoui (src.drop posBlockHeaderTxCount)
  txindexLoop sha256 src txCount.toNat (.ofNat sizeBlockHeader)

/-! ## What the validators see of the store -/

/-- The store as the validators use it.  `io_load_nth_tx_output` and `io_block_at_height` are
declared but not implemented. -/
structure Store where
  /-- `m_io_load_block`. -/
  loadBlock : Digest → Run (Option Block)
  /-- `io_load_block_header`. -/
  loadBlockHeader : Digest → Run (Option BlockHeader)
  /-- `io_load_nth_tx_output`. -/
  loadNthTxOutput : Digest → UInt16 → Option TxOutput
  /-- `io_block_at_height`. -/
  blockAtHeight : UInt64 → Digest

/-- The store kept on a disk, completed with the two functions the repository only declares. -/
def Disk.store (disk : Disk) (loadNthTxOutput : Digest → UInt16 → Option TxOutput)
    (blockAtHeight : UInt64 → Digest) : Store where
  loadBlock := mIoLoadBlock disk
  loadBlockHeader := ioLoadBlockHeader disk
  loadNthTxOutput := loadNthTxOutput
  blockAtHeight := blockAtHeight

end Freecoin
