import Freecoin.BlockStore
import Mathlib.Data.List.Dedup

/-!
# Finding transactions again

`io_load_tx_raw` looks a transaction id up in the index files, takes the name of the first file that
lists it for the hash of a block, and copies a transaction out of that block.  The name is the
hexadecimal text of the hash, so what is looked up is another hash, and the loop that skips
transactions never counts them.
-/

namespace Freecoin

open Foundation

/-! ## Searching an index file -/

/-- The search loop of `intern_hashlist_getindex`. -/
def hashlistSearch (hash : Digest) (content : List UInt8) : (i remaining : Nat) → Int
  | _, 0 => -1
  | i, remaining + 1 =>
      if (content.drop (i * 32)).take 32 = hash.toList then i
      else hashlistSearch hash content (i + 1) remaining

/-- `intern_hashlist_getindex`, on the content of the file.  The number of records is an `int`. -/
def internHashlistGetindex (hash : Digest) (content : List UInt8) : Int :=
  hashlistSearch hash content 0 (UInt32.ofNat (content.length / 32)).toInt32.toInt.toNat

/-- The loop returns the position of the first record that is the digest. -/
theorem hashlistSearch_eq (hash : Digest) (front ids : List Digest) :
    hashlistSearch hash ((front ++ ids).flatMap List.Vector.toList) front.length ids.length =
      if hash ∈ ids then ((front.length + ids.idxOf hash : Nat) : Int) else -1 := by
  induction ids generalizing front with
  | nil => rfl
  | cons id ids ih =>
      have record : (((front ++ id :: ids).flatMap List.Vector.toList).drop
          (front.length * 32)).take 32 = id.toList := by
        rw [List.flatMap_append, List.drop_left' (length_flatMap_digests front), List.flatMap_cons]
        exact List.take_left' id.toList_length
      rw [List.length_cons, hashlistSearch, record]
      by_cases here : id = hash
      · subst here
        simp
      · have elsewhere : ¬ id.toList = hash.toList := fun same => here (List.Vector.eq _ _ same)
        have later := ih (front ++ [id])
        rw [List.append_assoc, List.singleton_append, List.length_append, List.length_singleton]
          at later
        rw [if_neg elsewhere, later, List.idxOf_cons_ne _ here]
        simp only [List.mem_cons, Ne.symm here, false_or]
        congr 2
        omega

/-- In the index of a block the search finds the first transaction with the id. -/
theorem internHashlistGetindex_eq (hash : Digest) {ids : List Digest}
    (few : ids.length < 2 ^ 31) :
    internHashlistGetindex hash (ids.flatMap List.Vector.toList) =
      if hash ∈ ids then ((ids.idxOf hash : Nat) : Int) else -1 := by
  have count : (UInt32.ofNat ids.length).toInt32.toInt.toNat = ids.length := by
    have narrow : (UInt32.ofNat ids.length).toNat = ids.length :=
      toNat_ofNat_of_lt (by omega)
    change (UInt32.ofNat ids.length).toBitVec.toInt.toNat = _
    rw [BitVec.toInt_eq_toNat_of_lt (by change 2 * (UInt32.ofNat ids.length).toNat < _; omega)]
    exact narrow
  rw [internHashlistGetindex, length_flatMap_digests, Nat.mul_div_cancel _ (by omega), count]
  simpa using hashlistSearch_eq hash [] ids

/-! ## The index file of a block -/

/-- Transaction `i` of a raw block has this hash. -/
def HasTxHash (sha256 : List UInt8 → Digest) (src : List UInt8) (i : Nat) (id : Digest) : Prop :=
  ∃ offset, txOffset src i = .ok offset ∧ txRawComputeHash sha256 (src.drop offset) = .ok id

/-- The index file of a raw block: one record for each transaction, in order, and a search in it
finds the first transaction with a hash, or none. -/
structure IndexesTxs (sha256 : List UInt8 → Digest) (src : List UInt8) (txCount : Nat)
    (index : List UInt8) : Prop where
  length_eq : index.length = txCount * 32
  record : ∀ i < txCount, ∃ id, HasTxHash sha256 src i id ∧
    (index.drop (i * 32)).take 32 = id.toList
  found : ∀ hash i, IsLeast { i | i < txCount ∧ HasTxHash sha256 src i hash } i →
    internHashlistGetindex hash index = i
  missing : ∀ hash, (∀ i < txCount, ¬ HasTxHash sha256 src i hash) →
    internHashlistGetindex hash index = -1

section Index

variable {sha256 : List UInt8 → Digest} {raw : RawBlock}

theorem hasTxHash_iff {i : Nat} (inside : i < raw.txs.length) {id : Digest} :
    HasTxHash sha256 raw.bytes i id ↔ (raw.ids sha256)[i]? = some id := by
  rw [HasTxHash, RawBlock.ids, List.getElem?_map, List.getElem?_eq_getElem inside]
  simp only [raw.txOffset_eq (Nat.le_of_lt inside), Except.ok.injEq, exists_eq_left',
    raw.txRawComputeHash_at sha256 inside, Option.map_some, Option.some.injEq]

/-- Record `i` of a list of digests is digest `i`. -/
theorem record_flatMap_digests {ids : List Digest} {i : Nat} {id : Digest}
    (listed : ids[i]? = some id) :
    ((ids.flatMap List.Vector.toList).drop (i * 32)).take 32 = id.toList := by
  obtain ⟨inside, rfl⟩ := List.getElem?_eq_some_iff.mp listed
  have front : (ids.take i).length = i := List.length_take_of_le (Nat.le_of_lt inside)
  have split := congrArg (List.flatMap List.Vector.toList) (List.take_append_drop i ids)
  rw [List.flatMap_append, List.drop_eq_getElem_cons inside, List.flatMap_cons] at split
  rw [← split, List.drop_left' (by rw [length_flatMap_digests, front])]
  exact List.take_left' ids[i].toList_length

/-- The least position of a digest is the one a search from the front meets first. -/
theorem idxOf_of_isLeast {ids : List Digest} {hash : Digest} {i : Nat}
    (least : IsLeast { i | i < ids.length ∧ ids[i]? = some hash } i) : ids.idxOf hash = i := by
  obtain ⟨⟨inside, listed⟩, minimal⟩ := least
  have member : hash ∈ ids := List.mem_of_getElem? listed
  have first : ids.idxOf hash < ids.length := List.idxOf_lt_length_of_mem member
  apply Nat.le_antisymm
  · by_contra later
    have earlier := List.not_of_lt_findIdx (Nat.not_le.mp later)
    rw [List.getElem?_eq_getElem inside, Option.some.injEq] at listed
    simp [listed] at earlier
  · exact minimal ⟨first, List.getElem?_idxOf member⟩

theorem indexesTxs_ids (few : raw.txs.length < 2 ^ 31) :
    IndexesTxs sha256 raw.bytes raw.txs.length
      ((raw.ids sha256).flatMap List.Vector.toList) := by
  have length_eq : (raw.ids sha256).length = raw.txs.length := List.length_map _
  refine ⟨by rw [length_flatMap_digests, length_eq], ?_, ?_, ?_⟩
  · intro i inside
    have listed := List.getElem?_eq_getElem (l := raw.ids sha256) (by omega : i < _)
    exact ⟨_, (hasTxHash_iff inside).mpr listed, record_flatMap_digests listed⟩
  · intro hash i least
    have same : { i | i < raw.txs.length ∧ HasTxHash sha256 raw.bytes i hash } =
        { i | i < (raw.ids sha256).length ∧ (raw.ids sha256)[i]? = some hash } := by
      ext i
      rw [Set.mem_ofPred_eq, Set.mem_ofPred_eq, length_eq]
      exact and_congr_right fun inside => hasTxHash_iff inside
    rw [same] at least
    rw [internHashlistGetindex_eq hash (by omega), idxOf_of_isLeast least,
      if_pos (List.mem_of_getElem? least.1.2)]
  · intro hash absent
    rw [internHashlistGetindex_eq hash (by omega), if_neg]
    intro member
    obtain ⟨i, inside, listed⟩ := List.mem_iff_getElem.mp member
    apply absent i (by omega)
    rw [hasTxHash_iff (by omega), List.getElem?_eq_getElem inside, listed]

end Index

/-- Saving a raw block that fits a block buffer writes its files without a fault and then enchains
the block. -/
theorem exists_written_of_ioSaveBlockRaw {sha256 : List UInt8 → Digest} {raw : RawBlock}
    (small : raw.offset raw.txs.length ≤ maxBlockSize) (disk : Disk) :
    ∃ block written, mBlockDeserialize raw.bytes = .ok block ∧
      written.txindex (blockFileName (raw.hash sha256)) =
        some ((raw.ids sha256).flatMap List.Vector.toList) ∧
      written.heads = disk.heads ∧
      ∀ fuel, ioSaveBlockRaw sha256 fuel disk raw.bytes =
        enchainBlock sha256 fuel written block := by
  have addressable := raw.addressable_of_le small
  have behind := raw.offset_end_lt addressable
  obtain ⟨records, indexed, _, digests⟩ := raw.txindexRecords_eq sha256 addressable
  have index_eq : (records.flatMap fun record => record.2.toList) =
      (raw.ids sha256).flatMap List.Vector.toList := by
    rw [RawBlock.ids, ← digests, List.flatMap_map]
  have inside : raw.offset raw.txs.length ≤ raw.bytes.length := by
    simp [RawBlock.offset, RawBlock.bytes, sizeBlockHeader]
  have read := mBlockDeserialize_bytes raw (raw.length_txs_lt addressable)
  let name := blockFileName (raw.hash sha256)
  let written : Disk :=
    { blocks := Function.update disk.blocks name (some raw.content)
      txindex := Function.update disk.txindex name
        (some ((raw.ids sha256).flatMap List.Vector.toList))
      heads := disk.heads }
  refine ⟨_, written, read, Function.update_self _ _ _, rfl, fun fuel => ?_⟩
  rw [ioSaveBlockRaw, raw.blockRawComputeHash_eq, Run.ok_bind,
    raw.blockRawComputeSize_eq addressable, Run.ok_bind, toNat_ofNat_of_lt (by omega),
    readOut_of_le inside, Run.ok_bind, indexed, Run.ok_bind, read, Run.ok_bind, raw.take_bytes,
    index_eq]
  rfl

/-- The index of a raw block that fits a block buffer lists the hashes of the transactions in order,
and searching it gives the first position of a hash, or -1.  `io_save_block_raw` has written it when
it comes to `enchain_block`, and leaves it there; without heads it returns. -/
theorem txindex_indexes (sha256 : List UInt8 → Digest) (raw : RawBlock)
    (small : raw.offset raw.txs.length ≤ maxBlockSize) :
    ∃ hash index, blockRawComputeHash sha256 raw.bytes = .ok hash ∧
      IndexesTxs sha256 raw.bytes raw.header.txCount.toNat index ∧
      ∀ disk : Disk,
        (∃ block written, mBlockDeserialize raw.bytes = .ok block ∧
          written.txindex (blockFileName hash) = some index ∧ written.heads = disk.heads ∧
          ∀ fuel, ioSaveBlockRaw sha256 fuel disk raw.bytes =
            enchainBlock sha256 fuel written block) ∧
        (∀ fuel after, ioSaveBlockRaw sha256 fuel disk raw.bytes = .ok after →
          after.txindex (blockFileName hash) = some index) ∧
        (disk.heads = [] → ∀ fuel, ∃ after,
          ioSaveBlockRaw sha256 fuel disk raw.bytes = .ok after) := by
  have addressable := raw.addressable_of_le small
  have before := raw.le_offset (Nat.sub_le raw.txs.length 1)
  rw [sizeBlockHeader] at before
  refine ⟨raw.hash sha256, (raw.ids sha256).flatMap List.Vector.toList,
    raw.blockRawComputeHash_eq sha256, ?_, fun disk => ⟨?_, fun fuel after saved => ?_, ?_⟩⟩
  · rw [raw.count]
    exact indexesTxs_ids (by omega)
  · exact exists_written_of_ioSaveBlockRaw small disk
  · rw [(files_of_ioSaveBlockRaw saved).2, Function.update_self]
  · exact fun headless fuel => exists_ioSaveBlockRaw raw headless addressable

/-- A block of two transactions is saved with an index of two records. -/
theorem txindex_indexes_twoTxBlock :
    twoTxBlock.offset twoTxBlock.txs.length ≤ maxBlockSize ∧
      ∃ hash index after, blockRawComputeHash sha256 twoTxBlock.bytes = .ok hash ∧
        IndexesTxs sha256 twoTxBlock.bytes 2 index ∧
        ioSaveBlockRaw sha256 0 Disk.empty twoTxBlock.bytes = .ok after ∧
        after.txindex (blockFileName hash) = some index := by
  have small : twoTxBlock.offset twoTxBlock.txs.length ≤ maxBlockSize := by decide
  obtain ⟨hash, index, hashed, indexes, saves⟩ := txindex_indexes sha256 twoTxBlock small
  obtain ⟨_, kept, returns⟩ := saves Disk.empty
  obtain ⟨after, saved⟩ := returns rfl 0
  exact ⟨small, hash, index, after, hashed, indexes, saved, kept 0 after saved⟩

/-! ## Searching the directory -/

/-- The byte of an ASCII character. -/
def charByte (c : Char) : UInt8 := .ofNat c.toNat

/-- `io_block_of_tx`, for the names `readdir` returns: the position of the transaction, and the
first bytes of the file's name.  The entries for the directory itself and for its parent hold no
records. -/
def ioBlockOfTx (disk : Disk) (txHash dstBlockHash : Digest) : List FileName → Run (Int × Digest)
  | [] => .ok (-1, dstBlockHash)
  | name :: names =>
      match disk.txindex name with
      | none => .error (.fatal "Failed to open file in intern_find_hash()")
      | some content =>
          let pos := internHashlistGetindex txHash content
          if 0 ≤ pos then do
            let blockHash ← copyOut 32 (name.map charByte)
            return (pos, blockHash)
          else ioBlockOfTx disk txHash dstBlockHash names

/-! ## Copying a transaction -/

/-- The skipping loop of `io_load_nth_tx_raw`: the cursor moves on, and `tx_cursor` stays zero. -/
def skipTxs (buffer : List UInt8) (n : UInt32) : (fuel : Nat) → (cursor : UInt32) → Run UInt32
  | 0, _ => .error .outOfFuel
  | fuel + 1, cursor =>
      if 0 < n then do
        let position ← intIndex cursor
        let size ← txRawComputeSize (buffer.drop position)
        skipTxs buffer n fuel (cursor + size)
      else .ok cursor

/-- `io_load_nth_tx_raw`.  Its `block_buffer` is a local array of `MAX_BLOCK_SIZE` bytes, which the
stack is taken to hold. -/
def ioLoadNthTxRaw (disk : Disk) (fuel : Nat) (blockHash : Digest) (n : UInt32) (dst : Buffer) :
    Run (Bool × Buffer) := do
  match ← ioLoadBlockRaw disk blockHash maxBlockSize with
  | none => return (false, dst)
  | some buffer => do
      let txCount ← btoui (buffer.drop posBlockHeaderTxCount)
      if n ≥ txCount then
        .error (.fatal "Attempted to use io_load_nth_tx_raw() with n >= tx_count")
      else do
        let cursor ← skipTxs buffer n fuel (.ofNat sizeBlockHeader)
        let position ← intIndex cursor
        let size ← txRawComputeSize (buffer.drop position)
        let tx ← readOut size.toNat (buffer.drop position)
        let dst ← dst.store 0 tx
        return (true, dst)

/-- `io_load_tx_raw`: what `io_load_nth_tx_raw` returns is not looked at.  `blockHash` is what the
local array holds beforehand. -/
def ioLoadTxRaw (disk : Disk) (names : List FileName) (fuel : Nat) (txHash blockHash : Digest)
    (dst : Buffer) : Run (Bool × Buffer) := do
  let (pos, blockHash) ← ioBlockOfTx disk txHash blockHash names
  if pos < 0 then return (false, dst)
  let (_, dst) ← ioLoadNthTxRaw disk fuel blockHash (.ofNat pos.toNat) dst
  return (true, dst)

/-! ## The name taken for a hash -/

/-- The 32 bytes `io_block_of_tx` copies from the name of a block's index file: the hexadecimal
text of the first half of the hash. -/
def nameHash (hash : Digest) : Digest :=
  ⟨((blockFileName hash).map charByte).take 32, by simp [length_blockFileName]⟩

theorem copyOut_blockFileName (hash : Digest) :
    copyOut 32 ((blockFileName hash).map charByte) = .ok (nameHash hash) := by
  rw [copyOut_eq_ok]
  exact ⟨by simp [length_blockFileName], rfl⟩

/-! ## One step of the directory search -/

section Search

variable {disk : Disk} {txHash blockHash : Digest} {hash : Digest} {ids : List Digest}
  {names : List FileName}

theorem ioBlockOfTx_of_mem
    (indexed : disk.txindex (blockFileName hash) = some (ids.flatMap List.Vector.toList))
    (few : ids.length < 2 ^ 31) (listed : txHash ∈ ids) :
    ioBlockOfTx disk txHash blockHash (blockFileName hash :: names) =
      .ok ((ids.idxOf txHash : Nat), nameHash hash) := by
  simp only [ioBlockOfTx, indexed, internHashlistGetindex_eq txHash few, if_pos listed,
    Int.natCast_nonneg, if_true, copyOut_blockFileName, Run.ok_bind, Run.pure_eq_ok]

theorem ioBlockOfTx_of_not_mem
    (indexed : disk.txindex (blockFileName hash) = some (ids.flatMap List.Vector.toList))
    (few : ids.length < 2 ^ 31) (unlisted : txHash ∉ ids) :
    ioBlockOfTx disk txHash blockHash (blockFileName hash :: names) =
      ioBlockOfTx disk txHash blockHash names := by
  rw [ioBlockOfTx, indexed]
  simp only [internHashlistGetindex_eq txHash few, if_neg unlisted]
  rfl

end Search

/-! ## Copying the first transaction -/

theorem skipTxs_zero (buffer : List UInt8) (fuel : Nat) (cursor : UInt32) :
    skipTxs buffer 0 (fuel + 1) cursor = .ok cursor := rfl

/-- The skipping loop never returns once it is entered. -/
theorem skipTxs_ne_ok {buffer : List UInt8} {n : UInt32} (entered : 0 < n) (fuel : Nat)
    (cursor stop : UInt32) : skipTxs buffer n fuel cursor ≠ .ok stop := by
  induction fuel generalizing cursor with
  | zero =>
      intro returned
      cases returned
  | succ fuel ih =>
      rw [skipTxs, if_pos entered]
      intro returned
      obtain ⟨position, _, rest⟩ := Run.bind_eq_ok.mp returned
      obtain ⟨size, _, rest⟩ := Run.bind_eq_ok.mp rest
      exact ih _ rest

namespace RawBlock

/-- A raw block with nothing behind its transactions. -/
def stripped (raw : RawBlock) : RawBlock := { raw with trailing := [] }

theorem bytes_stripped (raw : RawBlock) : raw.stripped.bytes = raw.content := by
  simp [bytes, content, stripped]

theorem drop_content (raw : RawBlock) {first : Tx} {others : List Tx}
    (txs_eq : raw.txs = first :: others) :
    raw.content.drop sizeBlockHeader = first.bytes ++ others.flatMap Tx.bytes := by
  rw [content, txs_eq, List.flatMap_cons]
  exact List.drop_left' raw.header.length_bytes

end RawBlock

theorem ioLoadNthTxRaw_of_none {disk : Disk} {hash : Digest}
    (absent : blockFile disk hash = none) (fuel : Nat) (n : UInt32) (dst : Buffer) :
    ioLoadNthTxRaw disk fuel hash n dst = .ok (false, dst) := by
  rw [ioLoadNthTxRaw, ioLoadBlockRaw_of_none absent]
  rfl

section Nth

variable {disk : Disk} {hash : Digest} {raw : RawBlock}
  (stored : blockFile disk hash = some raw.content) {dst : Buffer}

theorem btoui_content (raw : RawBlock) :
    btoui (raw.content.drop posBlockHeaderTxCount) = .ok raw.header.txCount := by
  rw [← raw.bytes_stripped]
  exact raw.stripped.btoui_txCount

include stored

/-- When `io_load_nth_tx_raw` returns for a stored block, it has copied the first transaction: the
skipping loop gets past none. -/
theorem first_of_ioLoadNthTxRaw {fuel : Nat} {n : UInt32} {found : Bool} {after : Buffer}
    (returned : ioLoadNthTxRaw disk fuel hash n dst = .ok (found, after)) :
    found = true ∧ n = 0 ∧ raw.content.length ≤ maxBlockSize ∧
      ∃ first, raw.txs.head? = some first ∧ first.bytes.length ≤ dst.size ∧
        after = dst.write 0 first.bytes := by
  have counted : raw.header.txCount.toNat = raw.txs.length := raw.count
  have start : intIndex (.ofNat sizeBlockHeader) = .ok sizeBlockHeader := rfl
  obtain ⟨loaded, load, returned⟩ := Run.bind_eq_ok.mp returned
  obtain ⟨same, fits⟩ := ioLoadBlockRaw_eq_ok.mp load
  obtain rfl := stored.symm.trans same
  simp only [btoui_content, Run.ok_bind] at returned
  split at returned
  · cases returned
  rename_i inside
  obtain ⟨cursor, skipped, rest⟩ := Run.bind_eq_ok.mp returned
  have n_zero : n = 0 := by
    by_contra positive
    exact skipTxs_ne_ok (UInt32.pos_iff_ne_zero.mpr positive) _ _ _ skipped
  subst n_zero
  have cursor_eq : cursor = .ofNat sizeBlockHeader := by
    cases fuel with
    | zero => cases skipped
    | succ fuel => exact (Except.ok.inj skipped).symm
  subst cursor_eq
  rw [start, Run.ok_bind] at rest
  cases txs_eq : raw.txs with
  | nil =>
      rw [txs_eq, List.length_nil] at counted
      exact absurd (UInt32.le_iff_toNat_le.mpr (by omega)) inside
  | cons first others =>
      have tail := raw.drop_content txs_eq
      have firstCounted := raw.counted first (by simp [txs_eq])
      rw [tail, txRawComputeSize_bytes, Run.ok_bind,
        toNat_txComputeSize_of_counted firstCounted, readOut_of_le (by simp), Run.ok_bind,
        List.take_left] at rest
      obtain ⟨copied, written, returned⟩ := Run.bind_eq_ok.mp rest
      obtain ⟨room, rfl⟩ := Buffer.store_eq_ok.mp written
      obtain ⟨rfl, rfl⟩ := Prod.mk.inj (Except.ok.inj returned)
      exact ⟨rfl, rfl, fits _ rfl, first, rfl, by omega, rfl⟩

theorem ioLoadNthTxRaw_first {first : Tx} (fits : raw.content.length ≤ maxBlockSize)
    (head : raw.txs.head? = some first) (room : first.bytes.length ≤ dst.size) :
    ioLoadNthTxRaw disk 1 hash 0 dst = .ok (true, dst.write 0 first.bytes) := by
  have counted : raw.header.txCount.toNat = raw.txs.length := raw.count
  have start : intIndex (.ofNat sizeBlockHeader) = .ok sizeBlockHeader := rfl
  obtain ⟨others, txs_eq⟩ := List.head?_eq_some_iff.mp head
  have inside : ¬ (0 : UInt32) ≥ raw.header.txCount := by
    rw [ge_iff_le, UInt32.le_iff_toNat_le, counted, txs_eq]
    simp
  have tail := raw.drop_content txs_eq
  have firstCounted := raw.counted first (by simp [txs_eq])
  simp only [ioLoadNthTxRaw, ioLoadBlockRaw_of_some stored fits, btoui_content, Run.ok_bind,
    if_neg inside, skipTxs_zero, start, tail, txRawComputeSize_bytes,
    toNat_txComputeSize_of_counted firstCounted]
  rw [readOut_of_le (by simp), Run.ok_bind, List.take_left,
    Buffer.store_of_le (by rwa [Nat.zero_add])]
  rfl

end Nth

/-- The transaction at position `n` of a stored block is copied: the one behind the sizes of those
before it, whatever the destination, as long as there is room for it. -/
def NthTxCopied (disk : Disk) (hash : Digest) (content : List UInt8) (n : UInt32) : Prop :=
  ∃ offset size, txOffset content n.toNat = .ok offset ∧
    txRawComputeSize (content.drop offset) = .ok size ∧
    ∀ dst : Buffer, size.toNat ≤ dst.size → ∃ fuel,
      ioLoadNthTxRaw disk fuel hash n dst =
        .ok (true, dst.write 0 ((content.drop offset).take size.toNat))

section Copied

variable {disk : Disk} {hash : Digest} {raw : RawBlock}
  (stored : blockFile disk hash = some raw.content) {n : UInt32}

include stored

theorem first_of_nthTxCopied (copied : NthTxCopied disk hash raw.content n) :
    n = 0 ∧ raw.content.length ≤ maxBlockSize := by
  obtain ⟨offset, size, _, _, returns⟩ := copied
  obtain ⟨fuel, returned⟩ := returns { size := size.toNat, byte := fun _ => 0 } le_rfl
  obtain ⟨_, n_zero, fits, _⟩ := first_of_ioLoadNthTxRaw stored returned
  exact ⟨n_zero, fits⟩

theorem nthTxCopied_first (fits : raw.content.length ≤ maxBlockSize)
    (nonempty : 0 < raw.header.txCount) : NthTxCopied disk hash raw.content 0 := by
  have counted : raw.header.txCount.toNat = raw.txs.length := raw.count
  rw [UInt32.lt_iff_toNat_lt, counted] at nonempty
  cases txs_eq : raw.txs with
  | nil => simp [txs_eq] at nonempty
  | cons first others =>
      have tail := raw.drop_content txs_eq
      have size := toNat_txComputeSize_of_counted (raw.counted first (by simp [txs_eq]))
      refine ⟨sizeBlockHeader, txComputeSize first, rfl, ?_, ?_⟩
      · rw [tail, txRawComputeSize_bytes]
      · intro dst room
        rw [size] at room
        refine ⟨1, ?_⟩
        rw [ioLoadNthTxRaw_first stored fits (by rw [txs_eq]; rfl) room, tail, size,
          List.take_left]

end Copied

/-- Of a stored block, `io_load_nth_tx_raw` copies the first transaction, if the block fits its
buffer, and never another one. -/
theorem nthTxCopied_iff {disk : Disk} {hash : Digest} {raw : RawBlock} {n : UInt32}
    (stored : blockFile disk hash = some raw.content) (inside : n < raw.header.txCount) :
    NthTxCopied disk hash raw.content n ↔ n = 0 ∧ raw.content.length ≤ maxBlockSize := by
  constructor
  · exact first_of_nthTxCopied stored
  · rintro ⟨rfl, fits⟩
    exact nthTxCopied_first stored fits inside

/-! ## The lookup after a sequence of saves -/

/-- The names `readdir` returns: every index file once, in some order. -/
structure Disk.Lists (disk : Disk) (names : List FileName) : Prop where
  nodup : names.Nodup
  mem_iff : ∀ name, name ∈ names ↔ (disk.txindex name).isSome

/-- A transaction of one of the blocks has this hash. -/
def SavedTx (sha256 : List UInt8 → Digest) (raws : List RawBlock) (id : Digest) : Prop :=
  ∃ raw ∈ raws, ∃ tx ∈ raw.txs, txRawComputeHash sha256 tx.bytes = .ok id

/-- The transactions of the saved blocks are found by their hashes, in whatever order the directory
is read and whatever the destination holds, and nothing else is found. -/
structure TxsFindable (sha256 : List UInt8 → Digest) (raws : List RawBlock) (disk : Disk) :
    Prop where
  found : ∀ id, SavedTx sha256 raws id → ∀ names, disk.Lists names → ∀ blockHash dst,
    dst.size = maxTxSize → ∃ fuel after,
      ioLoadTxRaw disk names fuel id blockHash dst = .ok (true, after) ∧
        txRawComputeHash sha256 (after.window 0 after.size) = .ok id
  unknown : ∀ id, ¬ SavedTx sha256 raws id → ∀ names, disk.Lists names → ∀ fuel blockHash dst,
    ioLoadTxRaw disk names fuel id blockHash dst = .ok (false, dst)

/-- Of the blocks saved, the one kept under a hash lists this transaction id. -/
def Holds (sha256 : List UInt8 → Digest) (raws : List RawBlock) (id hash : Digest)
    (holder : RawBlock) : Prop :=
  latest (RawBlock.hash sha256) raws hash = some holder ∧ id ∈ holder.ids sha256

/-- Every transaction is the first of each block kept that has it, and the name of that block's file
begins with the hash of a block that begins with the transaction as well. -/
structure Recoverable (sha256 : List UInt8 → Digest) (raws : List RawBlock) : Prop where
  kept : ∀ id, SavedTx sha256 raws id → ∃ hash holder, Holds sha256 raws id hash holder
  first : ∀ id hash holder, Holds sha256 raws id hash holder →
    (holder.ids sha256).head? = some id
  named : ∀ id hash holder, Holds sha256 raws id hash holder → ∃ target tx,
    latest (RawBlock.hash sha256) raws (nameHash hash) = some target ∧
      target.content.length ≤ maxBlockSize ∧ target.txs.head? = some tx ∧
      tx.bytes.length ≤ maxTxSize ∧ sha256 tx.bytes = id

section Lookup

variable {sha256 : List UInt8 → Digest} {raws : List RawBlock} {id : Digest}

theorem savedTx_iff : SavedTx sha256 raws id ↔ ∃ raw ∈ raws, id ∈ raw.ids sha256 := by
  constructor
  · rintro ⟨raw, member, tx, txMember, hashed⟩
    have whole := txRawComputeHash_bytes (raw.counted tx txMember) sha256 []
    rw [List.append_nil, hashed] at whole
    exact ⟨raw, member, List.mem_map.mpr ⟨tx, txMember, (Except.ok.inj whole).symm⟩⟩
  · rintro ⟨raw, member, listed⟩
    obtain ⟨tx, txMember, rfl⟩ := List.mem_map.mp listed
    have whole := txRawComputeHash_bytes (raw.counted tx txMember) sha256 []
    rw [List.append_nil] at whole
    exact ⟨raw, member, tx, txMember, whole⟩

theorem Holds.savedTx {hash : Digest} {holder : RawBlock}
    (holds : Holds sha256 raws id hash holder) : SavedTx sha256 raws id :=
  savedTx_iff.mpr ⟨holder, (mem_of_latest _ holds.1).1, holds.2⟩

variable {saveFuel : Nat} {disk : Disk}
  (saved : saveAll sha256 saveFuel (raws.map RawBlock.bytes) Disk.empty = .ok disk)

include saved

theorem txindex_of_saveAll (hash : Digest) :
    disk.txindex (blockFileName hash) = (latest (RawBlock.hash sha256) raws hash).map
      fun raw => (raw.ids sha256).flatMap List.Vector.toList := by
  rw [(files_of_saveAll saved).2, replay_apply,
    latest_comp (RawBlock.hash sha256) blockFileName_injective]
  exact Option.or_none

theorem blockFile_of_saveAll (hash : Digest) :
    blockFile disk hash =
      (latest (RawBlock.hash sha256) raws hash).map RawBlock.content := by
  rw [blockFile_saveAll saved]
  exact Option.or_none

/-- Every index file belongs to a block that was saved and is kept. -/
theorem exists_latest_of_txindex {name : FileName} (exists_file : (disk.txindex name).isSome) :
    ∃ hash holder, name = blockFileName hash ∧
      latest (RawBlock.hash sha256) raws hash = some holder := by
  rw [(files_of_saveAll saved).2, replay_apply] at exists_file
  cases found : latest (fun raw => blockFileName (raw.hash sha256)) raws name with
  | none =>
      rw [found] at exists_file
      cases exists_file
  | some holder =>
      obtain ⟨member, rfl⟩ := mem_of_latest _ found
      rw [latest_comp (RawBlock.hash sha256) blockFileName_injective] at found
      exact ⟨_, holder, rfl, found⟩

theorem length_ids_lt {raw : RawBlock} (member : raw ∈ raws) :
    (raw.ids sha256).length < 2 ^ 31 := by
  have small := addressable_of_saveAll saved raw member
  have before := raw.le_offset (Nat.sub_le raw.txs.length 1)
  rw [sizeBlockHeader] at before
  rw [RawBlock.ids, List.length_map]
  omega

/-- The directory search stops at a kept block that lists the id, or finds none. -/
theorem ioBlockOfTx_cases (blockHash : Digest) (names : List FileName)
    (listed : ∀ name ∈ names, (disk.txindex name).isSome) :
    (∃ hash holder, Holds sha256 raws id hash holder ∧
      ioBlockOfTx disk id blockHash names =
        .ok (((holder.ids sha256).idxOf id : Nat), nameHash hash)) ∨
    (∀ hash holder, blockFileName hash ∈ names → ¬ Holds sha256 raws id hash holder) ∧
      ioBlockOfTx disk id blockHash names = .ok (-1, blockHash) := by
  induction names with
  | nil =>
      refine .inr ⟨fun hash holder member => ?_, rfl⟩
      cases member
  | cons name names ih =>
      obtain ⟨hash, holder, rfl, kept⟩ := exists_latest_of_txindex saved (listed name (by simp))
      have few := length_ids_lt saved (mem_of_latest _ kept).1
      have indexed := txindex_of_saveAll saved hash
      rw [kept, Option.map_some] at indexed
      by_cases here : id ∈ holder.ids sha256
      · exact .inl ⟨hash, holder, ⟨kept, here⟩, ioBlockOfTx_of_mem indexed few here⟩
      · rw [ioBlockOfTx_of_not_mem indexed few here]
        rcases ih fun other member => listed other (by simp [member]) with
          found | ⟨none_later, rest⟩
        · exact .inl found
        · refine .inr ⟨fun other otherHolder member holds => ?_, rest⟩
          rcases List.mem_cons.mp member with same | later
          · obtain rfl := blockFileName_injective same
            rw [Holds, kept, Option.some.injEq] at holds
            obtain ⟨rfl, listedHere⟩ := holds
            exact here listedHere
          · exact none_later other otherHolder later holds

/-- Some directory order puts any given index file first. -/
theorem exists_lists_cons {hash : Digest} {holder : RawBlock}
    (kept : latest (RawBlock.hash sha256) raws hash = some holder) :
    ∃ names, disk.Lists (blockFileName hash :: names) := by
  let all := (raws.map fun raw => blockFileName (raw.hash sha256)).dedup
  have mem_all : ∀ name, name ∈ all ↔ (disk.txindex name).isSome := by
    intro name
    rw [List.mem_dedup, List.mem_map]
    constructor
    · rintro ⟨raw, member, rfl⟩
      obtain ⟨found, latest_eq⟩ := exists_latest (RawBlock.hash sha256) member
      rw [txindex_of_saveAll saved, latest_eq]
      rfl
    · intro exists_file
      obtain ⟨other, raw, rfl, found⟩ := exists_latest_of_txindex saved exists_file
      obtain ⟨member, rfl⟩ := mem_of_latest _ found
      exact ⟨raw, member, rfl⟩
  have here : blockFileName hash ∈ all := by
    rw [mem_all, txindex_of_saveAll saved, kept]
    rfl
  refine ⟨all.erase (blockFileName hash), ?_, fun name => ?_⟩
  · rw [(List.perm_cons_erase here).symm.nodup_iff]
    exact List.nodup_dedup _
  · rw [(List.perm_cons_erase here).symm.mem_iff, mem_all]

omit saved in
theorem ioLoadTxRaw_of_pos {disk : Disk} {names : List FileName} {fuel : Nat}
    {blockHash target : Digest} {dst : Buffer} {pos : Nat}
    (located : ioBlockOfTx disk id blockHash names = .ok ((pos : Int), target)) :
    ioLoadTxRaw disk names fuel id blockHash dst =
      (ioLoadNthTxRaw disk fuel target (.ofNat pos) dst >>= fun loaded =>
        .ok (true, loaded.2)) := by
  have nonnegative : ¬ (pos : Int) < 0 := by omega
  simp only [ioLoadTxRaw, located, Run.ok_bind, nonnegative, if_false, Int.toNat_natCast]
  rfl

omit saved in
theorem ioLoadTxRaw_of_neg {disk : Disk} {names : List FileName} {fuel : Nat}
    {blockHash : Digest} {dst : Buffer}
    (located : ioBlockOfTx disk id blockHash names = .ok (-1, blockHash)) :
    ioLoadTxRaw disk names fuel id blockHash dst = .ok (false, dst) := by
  rw [ioLoadTxRaw, located]
  rfl

/-- Ids of no saved transaction are not found. -/
theorem ioLoadTxRaw_of_unknown (unsaved : ¬ SavedTx sha256 raws id) {names : List FileName}
    (lists : disk.Lists names) (fuel : Nat) (blockHash : Digest) (dst : Buffer) :
    ioLoadTxRaw disk names fuel id blockHash dst = .ok (false, dst) := by
  rcases ioBlockOfTx_cases saved blockHash names fun name => (lists.mem_iff name).mp with
    ⟨hash, holder, holds, _⟩ | ⟨_, located⟩
  · exact absurd holds.savedTx unsaved
  · exact ioLoadTxRaw_of_neg located

end Lookup

/-! ## When the lookup works -/

/-- A buffer that starts with a transaction has its hash. -/
theorem txRawComputeHash_window {sha256 : List UInt8 → Digest} {tx : Tx} (counted : tx.Counted)
    {dst : Buffer} (room : tx.bytes.length ≤ dst.size) :
    txRawComputeHash sha256 ((dst.write 0 tx.bytes).window 0 dst.size) =
      .ok (sha256 tx.bytes) := by
  obtain ⟨rest, size_eq⟩ := Nat.exists_eq_add_of_le room
  rw [size_eq, Buffer.window_append, Buffer.window_write_self,
    txRawComputeHash_bytes counted]

/-- A destination that no hash can be read from unless it is written. -/
def onesBuffer : Buffer := { size := maxTxSize, byte := fun _ => 0xff }

/-- It claims to hold a longer transaction than it is. -/
theorem txRawComputeHash_ones (sha256 : List UInt8 → Digest) (id : Digest) :
    txRawComputeHash sha256 (onesBuffer.window 0 onesBuffer.size) ≠ .ok id := by
  have front : onesBuffer.window 0 maxTxSize =
      List.replicate 6 0xff ++ onesBuffer.window 6 (maxTxSize - 6) :=
    Buffer.window_append _ 0 6 (maxTxSize - 6)
  have size : txRawComputeSize (onesBuffer.window 0 maxTxSize) = .ok 21364420 := by
    rw [front]
    rfl
  have short : ¬ (21364420 : UInt32).toNat ≤ (onesBuffer.window 0 maxTxSize).length := by
    rw [Buffer.length_window, maxTxSize]
    decide
  have whole : onesBuffer.size = maxTxSize := rfl
  rw [whole, txRawComputeHash, size, Run.ok_bind, readOut, if_neg short]
  intro hashed
  cases hashed

section Findable

variable {sha256 : List UInt8 → Digest} {raws : List RawBlock} {saveFuel : Nat} {disk : Disk}
  (saved : saveAll sha256 saveFuel (raws.map RawBlock.bytes) Disk.empty = .ok disk)

include saved

theorem txsFindable_of_recoverable (recoverable : Recoverable sha256 raws) :
    TxsFindable sha256 raws disk where
  unknown id unsaved names lists fuel blockHash dst :=
    ioLoadTxRaw_of_unknown saved unsaved lists fuel blockHash dst
  found id savedTx names lists blockHash dst size_eq := by
    rcases ioBlockOfTx_cases saved blockHash names fun name => (lists.mem_iff name).mp with
      ⟨hash, holder, holds, located⟩ | ⟨absent, _⟩
    · obtain ⟨target, tx, kept, fits, head, room, hashed⟩ := recoverable.named id hash holder holds
      have position : (holder.ids sha256).idxOf id = 0 := by
        obtain ⟨rest, ids_eq⟩ := List.head?_eq_some_iff.mp (recoverable.first id hash holder holds)
        rw [ids_eq, List.idxOf_cons_self]
      have stored := blockFile_of_saveAll saved (nameHash hash)
      rw [kept, Option.map_some] at stored
      rw [← size_eq] at room
      have loaded := ioLoadNthTxRaw_first stored fits head room
      have counted := target.counted tx (List.mem_of_mem_head? head)
      refine ⟨1, dst.write 0 tx.bytes, ?_, ?_⟩
      · rw [ioLoadTxRaw_of_pos located, position]
        exact Run.bind_eq_ok.mpr ⟨_, loaded, rfl⟩
      · rw [Buffer.size_write, txRawComputeHash_window counted room, hashed]
    · obtain ⟨hash, holder, holds⟩ := recoverable.kept id savedTx
      refine absurd holds (absent hash holder ?_)
      rw [lists.mem_iff, txindex_of_saveAll saved, holds.1]
      rfl

/-- Whichever block is found first, its position is looked up in the block its file name begins
with. -/
theorem exists_nth_of_findable (findable : TxsFindable sha256 raws disk) {id hash : Digest}
    {holder : RawBlock} (holds : Holds sha256 raws id hash holder) :
    ∃ fuel result, ioLoadNthTxRaw disk fuel (nameHash hash)
        (.ofNat ((holder.ids sha256).idxOf id)) onesBuffer = .ok result ∧
      txRawComputeHash sha256 (result.2.window 0 result.2.size) = .ok id := by
  obtain ⟨names, lists⟩ := exists_lists_cons saved holds.1
  obtain ⟨fuel, after, returned, hashed⟩ :=
    findable.found id holds.savedTx _ lists id onesBuffer rfl
  have indexed := txindex_of_saveAll saved hash
  rw [holds.1, Option.map_some] at indexed
  have few := length_ids_lt saved (mem_of_latest _ holds.1).1
  rw [ioLoadTxRaw_of_pos (ioBlockOfTx_of_mem indexed few holds.2)] at returned
  obtain ⟨result, loaded, same⟩ := Run.bind_eq_ok.mp returned
  obtain ⟨_, rfl⟩ := Prod.mk.inj (Except.ok.inj same)
  exact ⟨fuel, result, loaded, hashed⟩

/-- That block is kept, the position is the first, and the transaction there has the id. -/
theorem exists_target_of_findable (findable : TxsFindable sha256 raws disk) {id hash : Digest}
    {holder : RawBlock} (holds : Holds sha256 raws id hash holder) :
    ∃ target tx, latest (RawBlock.hash sha256) raws (nameHash hash) = some target ∧
      UInt32.ofNat ((holder.ids sha256).idxOf id) = 0 ∧
      target.content.length ≤ maxBlockSize ∧ target.txs.head? = some tx ∧
      tx.bytes.length ≤ maxTxSize ∧ sha256 tx.bytes = id := by
  obtain ⟨fuel, ⟨found, after⟩, loaded, hashed⟩ := exists_nth_of_findable saved findable holds
  have stored := blockFile_of_saveAll saved (nameHash hash)
  cases kept : latest (RawBlock.hash sha256) raws (nameHash hash) with
  | none =>
      rw [kept, Option.map_none] at stored
      rw [ioLoadNthTxRaw_of_none stored] at loaded
      obtain ⟨_, rfl⟩ := Prod.mk.inj (Except.ok.inj loaded)
      exact absurd hashed (txRawComputeHash_ones sha256 id)
  | some target =>
      rw [kept, Option.map_some] at stored
      obtain ⟨_, zero, fits, tx, head, room, rfl⟩ := first_of_ioLoadNthTxRaw stored loaded
      have counted := target.counted tx (List.mem_of_mem_head? head)
      rw [Buffer.size_write, txRawComputeHash_window counted room] at hashed
      exact ⟨target, tx, rfl, zero, fits, head, room, Except.ok.inj hashed⟩

theorem recoverable_of_txsFindable (findable : TxsFindable sha256 raws disk) :
    Recoverable sha256 raws := by
  refine ⟨fun id savedTx => ?_, fun id hash holder holds => ?_, fun id hash holder holds => ?_⟩
  · obtain ⟨raw, member, listed⟩ := savedTx_iff.mp savedTx
    obtain ⟨kept, latest_eq⟩ := exists_latest (RawBlock.hash sha256) member
    obtain ⟨names, lists⟩ := exists_lists_cons saved latest_eq
    obtain ⟨fuel, after, returned, _⟩ := findable.found id savedTx _ lists id onesBuffer rfl
    rcases ioBlockOfTx_cases saved id _ fun name => (lists.mem_iff name).mp with
      ⟨hash, holder, holds, _⟩ | ⟨_, located⟩
    · exact ⟨hash, holder, holds⟩
    · rw [ioLoadTxRaw_of_neg located] at returned
      cases returned
  · obtain ⟨_, _, _, zero, _⟩ := exists_target_of_findable saved findable holds
    have few := length_ids_lt saved (mem_of_latest _ holds.1).1
    have inside := List.idxOf_lt_length_of_mem holds.2
    have position : (holder.ids sha256).idxOf id = 0 := by
      have narrow := congrArg UInt32.toNat zero
      rw [toNat_ofNat_of_lt (by omega)] at narrow
      exact narrow
    rw [List.head?_eq_getElem?, ← position, List.getElem?_idxOf holds.2]
  · obtain ⟨target, tx, kept, _, rest⟩ := exists_target_of_findable saved findable holds
    exact ⟨target, tx, kept, rest⟩

end Findable

/-- After any sequence of saves into an empty directory, lookup by id works exactly when every
saved transaction is recoverable. -/
theorem txsFindable_iff (sha256 : List UInt8 → Digest) (fuel : Nat) (raws : List RawBlock)
    (disk : Disk) (saved : saveAll sha256 fuel (raws.map RawBlock.bytes) Disk.empty = .ok disk) :
    TxsFindable sha256 raws disk ↔ Recoverable sha256 raws :=
  ⟨recoverable_of_txsFindable saved, txsFindable_of_recoverable saved⟩

/-- A digest that is written in hexadecimal as its own bytes. -/
def threesDigest : Digest := List.Vector.replicate 32 0x33

theorem nameHash_threesDigest : nameHash threesDigest = threesDigest := by decide

/-- A block with a single transaction. -/
def oneTxBlock : RawBlock :=
  { twoTxBlock with
    header := { twoTxBlock.header with txCount := 1 }
    txs := twoTxBlock.txs.take 1
    count := rfl
    counted := fun tx member => twoTxBlock.counted tx (List.mem_of_mem_take member) }

/-- A digest function that gives its header that digest. -/
def threesSha256 (message : List UInt8) : Digest :=
  if message = oneTxBlock.header.bytes then threesDigest else sha256 message

/-- A block with one transaction whose file name begins with its own hash: the transaction is
found. -/
theorem txsFindable_oneTxBlock :
    ∃ disk, saveAll threesSha256 0 [oneTxBlock.bytes] Disk.empty = .ok disk ∧
      SavedTx threesSha256 [oneTxBlock] (threesSha256 emptyTx.bytes) ∧
      TxsFindable threesSha256 [oneTxBlock] disk := by
  have small : oneTxBlock.offset oneTxBlock.txs.length ≤ maxBlockSize := by decide
  have headless : Disk.empty.heads = [] := rfl
  obtain ⟨disk, saved⟩ := @exists_saveAll threesSha256 0 [oneTxBlock] Disk.empty headless (by
    intro raw member
    rwa [List.mem_singleton.mp member])
  have named : oneTxBlock.hash threesSha256 = threesDigest := by
    rw [RawBlock.hash, threesSha256, if_pos rfl]
  have ids : oneTxBlock.ids threesSha256 = [threesSha256 emptyTx.bytes] := rfl
  have kept : latest (RawBlock.hash threesSha256) [oneTxBlock] threesDigest =
      some oneTxBlock := by
    simp [latest, named]
  have only : ∀ id hash holder, Holds threesSha256 [oneTxBlock] id hash holder →
      holder = oneTxBlock ∧ hash = threesDigest ∧ id = threesSha256 emptyTx.bytes := by
    rintro id hash holder ⟨found, listed⟩
    obtain ⟨member, same⟩ := mem_of_latest _ found
    obtain rfl := List.mem_singleton.mp member
    rw [ids] at listed
    exact ⟨rfl, same.symm.trans named, List.mem_singleton.mp listed⟩
  have here : SavedTx threesSha256 [oneTxBlock] (threesSha256 emptyTx.bytes) :=
    savedTx_iff.mpr ⟨oneTxBlock, List.mem_singleton.mpr rfl, by simp [ids]⟩
  refine ⟨disk, saved, here,
    (txsFindable_iff threesSha256 0 [oneTxBlock] disk saved).mpr ⟨?_, ?_, ?_⟩⟩
  · intro id savedId
    obtain ⟨raw, member, listed⟩ := savedTx_iff.mp savedId
    obtain rfl := List.mem_singleton.mp member
    exact ⟨threesDigest, oneTxBlock, kept, listed⟩
  · intro id hash holder holds
    obtain ⟨rfl, _, rfl⟩ := only id hash holder holds
    rw [ids]
    rfl
  · intro id hash holder holds
    obtain ⟨rfl, rfl, rfl⟩ := only id hash holder holds
    rw [nameHash_threesDigest]
    exact ⟨oneTxBlock, emptyTx, kept, by rwa [oneTxBlock.length_content], rfl, by decide, rfl⟩

set_option maxRecDepth 100000 in
theorem sha256_twoTxBlock_ne :
    (twoTxBlock.ids sha256).head? ≠ (twoTxBlock.ids sha256)[1]? := by
  decide +kernel

theorem exists_saved_twoTxBlock :
    ∃ disk, saveAll sha256 0 [twoTxBlock.bytes] Disk.empty = .ok disk ∧
      blockFile disk (twoTxBlock.hash sha256) = some twoTxBlock.content := by
  have headless : Disk.empty.heads = [] := rfl
  obtain ⟨disk, saved⟩ := exists_saveAll [twoTxBlock] headless (by
    intro raw member
    rw [List.mem_singleton.mp member]
    decide)
  refine ⟨disk, saved, ?_⟩
  rw [blockFile_of_saveAll saved]
  simp [latest]

/-- The first transaction of a saved block is copied. -/
theorem nthTxCopied_twoTxBlock :
    ∃ disk, saveAll sha256 0 [twoTxBlock.bytes] Disk.empty = .ok disk ∧
      NthTxCopied disk (twoTxBlock.hash sha256) twoTxBlock.content 0 := by
  obtain ⟨disk, saved, stored⟩ := exists_saved_twoTxBlock
  exact ⟨disk, saved, (nthTxCopied_iff stored (by decide)).mpr ⟨rfl, by decide⟩⟩

/-- The second transaction of a saved block is not copied: skipping the first never ends. -/
theorem not_nthTxCopied_twoTxBlock :
    ∃ disk, saveAll sha256 0 [twoTxBlock.bytes] Disk.empty = .ok disk ∧
      1 < twoTxBlock.header.txCount ∧
      ¬ NthTxCopied disk (twoTxBlock.hash sha256) twoTxBlock.content 1 := by
  obtain ⟨disk, saved, stored⟩ := exists_saved_twoTxBlock
  refine ⟨disk, saved, by decide, fun copied => ?_⟩
  obtain ⟨one_zero, _⟩ := first_of_nthTxCopied stored copied
  cases one_zero

/-- Saving one block of two transactions makes the second one unreachable by its id. -/
theorem txsFindable_twoTxBlock_fails :
    ∃ disk, saveAll sha256 0 [twoTxBlock.bytes] Disk.empty = .ok disk ∧
      ¬ TxsFindable sha256 [twoTxBlock] disk := by
  obtain ⟨disk, saved, _⟩ := exists_saved_twoTxBlock
  refine ⟨disk, saved, fun findable => ?_⟩
  have recoverable : Recoverable sha256 [twoTxBlock] := recoverable_of_txsFindable saved findable
  obtain ⟨id, second⟩ : ∃ id, (twoTxBlock.ids sha256)[1]? = some id := ⟨_, rfl⟩
  have first := recoverable.first id (twoTxBlock.hash sha256) twoTxBlock
    ⟨by simp [latest], List.mem_of_getElem? second⟩
  exact sha256_twoTxBlock_ne (first.trans second.symm)

end Freecoin
