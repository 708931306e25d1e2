import Freecoin.Foundation.Log
import Freecoin.Heads

/-!
# The block store

A block is kept in a file named by the hexadecimal text of its header hash, and its transaction ids
in a file of the same name in another directory.  Saving writes these two files and otherwise only
moves heads, so the store is the map that the sequence of saves describes.
-/

namespace Freecoin

open Foundation

/-! ## Loading into a buffer -/

/-- `io_load_block_raw(block_hash, dst)`: whether there is a file, and what `dst` holds then. -/
def ioLoadBlockRawInto (disk : Disk) (hash : Digest) (dst : Buffer) : Run (Bool × Buffer) := do
  match ← ioLoadBlockRaw disk hash dst.size with
  | none => return (false, dst)
  | some content => return (true, dst.write 0 content)

theorem ioLoadBlockRawInto_of_none {disk : Disk} {hash : Digest}
    (absent : blockFile disk hash = none) (dst : Buffer) :
    ioLoadBlockRawInto disk hash dst = .ok (false, dst) := by
  rw [ioLoadBlockRawInto, ioLoadBlockRaw_of_none absent]
  rfl

theorem ioLoadBlockRawInto_of_some {disk : Disk} {hash : Digest} {content : List UInt8}
    {dst : Buffer} (found : blockFile disk hash = some content)
    (room : content.length ≤ dst.size) :
    ioLoadBlockRawInto disk hash dst = .ok (true, dst.write 0 content) := by
  rw [ioLoadBlockRawInto, ioLoadBlockRaw_of_some found room]
  rfl

/-! ## Paths -/

/-- The files of the machine, by path. -/
abbrev Files := List Char → Option (List UInt8)

/-- Size of the buffer `m_strconcat` puts its text together in. -/
def maxStrLen : Nat := 1024

/-- `m_strconcat`; the terminating zero takes up a byte of the buffer as well. -/
def mStrconcat (parts : List (List Char)) : Run (List Char) :=
  if parts.flatten.length + 1 ≤ maxStrLen then .ok parts.flatten else .error .outOfBounds

/-- `getenv("HOME")`, short enough for every path below it to fit that buffer: the longest is that
of a private key, with 91 characters behind it. -/
structure Home where
  path : List Char
  short : path.length + 91 + 1 ≤ maxStrLen

/-- `ROOT_FREECOIN`. -/
def rootFreecoin (home : Home) : List Char := home.path ++ "/.freecoin/".toList

/-- `DIR_BLOCKS`. -/
def dirBlocks (home : Home) : List Char := rootFreecoin home ++ "/blocks/".toList

/-- `DIR_TXINDEX`. -/
def dirTxindex (home : Home) : List Char := rootFreecoin home ++ "/txindex/".toList

/-- The path of a file in a directory. -/
def pathIn (dir : List Char) (name : FileName) : List Char := dir ++ "/".toList ++ name

theorem length_blockFileName (hash : Digest) : (blockFileName hash).length = 64 := by
  have texts := congrArg List.length (blockFileName_eq hash)
  have digits : ∀ bytes : List UInt8, (btoascii bytes).length = bytes.length * 2 + 1 := by
    intro bytes
    simp [btoascii, List.length_flatMap]
  rw [digits, hash.toList_length, List.length_append, List.length_singleton] at texts
  omega

/-- Both paths of a block fit the buffer of `m_strconcat`. -/
theorem mStrconcat_pathIn (home : Home) (hash : Digest) :
    mStrconcat [dirBlocks home, "/".toList, blockFileName hash] =
        .ok (pathIn (dirBlocks home) (blockFileName hash)) ∧
      mStrconcat [dirTxindex home, "/".toList, blockFileName hash] =
        .ok (pathIn (dirTxindex home) (blockFileName hash)) := by
  have short := home.short
  have name := length_blockFileName hash
  constructor
  · refine (if_pos ?_).trans (by simp [pathIn])
    simp only [List.length_flatten, dirBlocks, rootFreecoin, List.map_cons, List.map_nil,
      List.sum_cons, List.sum_nil, List.length_append, name, String.length_toList]
    have lengths : "/.freecoin/".length = 11 ∧ "/blocks/".length = 8 ∧ "/".length = 1 := by decide
    omega
  · refine (if_pos ?_).trans (by simp [pathIn])
    simp only [List.length_flatten, dirTxindex, rootFreecoin, List.map_cons, List.map_nil,
      List.sum_cons, List.sum_nil, List.length_append, name, String.length_toList]
    have lengths : "/.freecoin/".length = 11 ∧ "/txindex/".length = 9 ∧ "/".length = 1 := by decide
    omega

/-- The data directory as a view of the files below `home`. -/
def Disk.ofFiles (home : Home) (state : Files × List Head) : Disk where
  blocks name := state.1 (pathIn (dirBlocks home) name)
  txindex name := state.1 (pathIn (dirTxindex home) name)
  heads := state.2

theorem pathIn_injective (dir : List Char) : Function.Injective (pathIn dir) := by
  intro left right same
  exact List.append_cancel_left same

/-- No block file is an index file. -/
theorem pathIn_dirBlocks_ne (home : Home) (left right : FileName) :
    pathIn (dirBlocks home) left ≠ pathIn (dirTxindex home) right := by
  intro same
  simp only [pathIn, dirBlocks, dirTxindex, List.append_assoc] at same
  have tails := List.append_cancel_left same
  simp at tails

theorem ofFiles_update_block (home : Home) (files : Files) (heads : List Head)
    (name : FileName) (content : List UInt8) :
    Disk.ofFiles home
        (Function.update files (pathIn (dirBlocks home) name) (some content), heads) =
      { blocks := Function.update (Disk.ofFiles home (files, heads)).blocks name (some content)
        txindex := (Disk.ofFiles home (files, heads)).txindex
        heads := heads } := by
  simp only [Disk.ofFiles, Disk.mk.injEq, and_true]
  constructor
  · exact Function.update_comp_eq_of_injective' files (pathIn_injective _) name (some content)
  · funext other
    rw [Function.update_of_ne (pathIn_dirBlocks_ne home name other).symm]

theorem ofFiles_update_txindex (home : Home) (files : Files) (heads : List Head)
    (name : FileName) (content : List UInt8) :
    Disk.ofFiles home
        (Function.update files (pathIn (dirTxindex home) name) (some content), heads) =
      { blocks := (Disk.ofFiles home (files, heads)).blocks
        txindex := Function.update (Disk.ofFiles home (files, heads)).txindex name (some content)
        heads := heads } := by
  simp only [Disk.ofFiles, Disk.mk.injEq, and_true]
  constructor
  · funext other
    rw [Function.update_of_ne (pathIn_dirBlocks_ne home other name)]
  · exact Function.update_comp_eq_of_injective' files (pathIn_injective _) name (some content)

/-- `io_save_block_raw` on the files of the machine. -/
def ioSaveBlockRawFiles (sha256 : List UInt8 → Digest) (fuel : Nat) (home : Home)
    (state : Files × List Head) (src : List UInt8) : Run (Files × List Head) := do
  let (files, heads) := state
  let blockHash ← blockRawComputeHash sha256 src
  let blockSize ← blockRawComputeSize src
  let content ← readOut blockSize.toNat src
  let blockFileAscii := blockFileName blockHash
  let blockFileName ← mStrconcat [dirBlocks home, "/".toList, blockFileAscii]
  let txindexFileName ← mStrconcat [dirTxindex home, "/".toList, blockFileAscii]
  let files := Function.update files blockFileName (some content)
  let records ← txindexRecords sha256 src
  let index := records.flatMap fun record => record.2.toList
  let files := Function.update files txindexFileName (some index)
  let block ← mBlockDeserialize src
  let disk ← enchainBlock sha256 fuel (Disk.ofFiles home (files, heads)) block
  return (files, disk.heads)

/-- Saving a sequence of raw blocks to the files of the machine. -/
def saveAllFiles (sha256 : List UInt8 → Digest) (fuel : Nat) (home : Home) :
    List (List UInt8) → Files × List Head → Run (Files × List Head)
  | [], state => .ok state
  | src :: rest, state => do
      let state ← ioSaveBlockRawFiles sha256 fuel home state src
      saveAllFiles sha256 fuel home rest state

/-! ## Enchaining leaves the files alone -/

/-- Two data directories hold the same files. -/
def Disk.SameFiles (disk after : Disk) : Prop :=
  after.blocks = disk.blocks ∧ after.txindex = disk.txindex

theorem Disk.SameFiles.refl (disk : Disk) : disk.SameFiles disk := ⟨rfl, rfl⟩

theorem Disk.SameFiles.trans {first second third : Disk} (before : first.SameFiles second)
    (after : second.SameFiles third) : first.SameFiles third :=
  ⟨after.1.trans before.1, after.2.trans before.2⟩

section Enchaining

variable {sha256 : List UInt8 → Digest} {fuel : Nat}

/-- The deletions of one step of `chain_clean` only drop heads. -/
theorem sameFiles_deletions (hash : Digest) (i : Nat) (heads : List (Head × Nat)) (disk : Disk) :
    disk.SameFiles (heads.foldl (fun disk (head, k) =>
      if k ≠ i ∧ hash = head.hash then ioHeadDelete disk hash else disk) disk) := by
  induction heads generalizing disk with
  | nil => exact .refl disk
  | cons walk heads ih =>
      obtain ⟨head, k⟩ := walk
      rw [List.foldl_cons]
      refine Disk.SameFiles.trans ?_ (ih _)
      change disk.SameFiles (if k ≠ i ∧ hash = head.hash then ioHeadDelete disk hash else disk)
      by_cases met : k ≠ i ∧ hash = head.hash
      · rw [if_pos met]
        exact ⟨rfl, rfl⟩
      · rw [if_neg met]
        exact .refl disk

theorem sameFiles_chainCleanWalk {heads : List Head} {i : Nat} {hash : Digest}
    {disk after : Disk} (cleaned : chainCleanWalk heads i fuel hash disk = .ok after) :
    disk.SameFiles after := by
  induction fuel generalizing hash disk with
  | zero => cases cleaned
  | succ fuel ih =>
      rw [chainCleanWalk_succ, Run.bind_eq_ok] at cleaned
      obtain ⟨loaded, _, rest⟩ := cleaned
      cases loaded with
      | none =>
          obtain rfl := Except.ok.inj rest
          exact .refl disk
      | some header =>
          have deleted := sameFiles_deletions hash i heads.zipIdx disk
          simp only at rest
          split at rest
          · rw [← Except.ok.inj rest]
            exact deleted
          · exact deleted.trans (ih rest)

theorem sameFiles_chainCleanWalks {heads : List Head} {walks : List (Head × Nat)}
    {disk after : Disk} (cleaned : chainCleanWalks heads fuel walks disk = .ok after) :
    disk.SameFiles after := by
  induction walks generalizing disk with
  | nil =>
      obtain rfl := Except.ok.inj cleaned
      exact .refl disk
  | cons walk walks ih =>
      rw [chainCleanWalks, Run.bind_eq_ok] at cleaned
      obtain ⟨next, walked, rest⟩ := cleaned
      exact (sameFiles_chainCleanWalk walked).trans (ih rest)

/-- `enchain_block` touches no block file and no index file. -/
theorem sameFiles_enchainBlock {disk after : Disk} {block : Block}
    (enchained : enchainBlock sha256 fuel disk block = .ok after) : disk.SameFiles after := by
  simp only [enchainBlock] at enchained
  split at enchained
  · obtain rfl := Except.ok.inj enchained
    exact .refl disk
  · obtain ⟨loaded, _, rest⟩ := Run.bind_eq_ok.mp enchained
    cases loaded with
    | none => exact sameFiles_chainCleanWalks rest
    | some header =>
        obtain ⟨met, _, rest⟩ := Run.bind_eq_ok.mp rest
        split at rest
        · exact sameFiles_chainCleanWalks rest
        · split at rest
          · have cleaned := sameFiles_chainCleanWalks rest
            exact ⟨cleaned.1, cleaned.2⟩
          · exact sameFiles_chainCleanWalks rest

/-- The data directory is a view of the files: saving through either is the same. -/
theorem ioSaveBlockRaw_ofFiles (home : Home) (state : Files × List Head) (src : List UInt8) :
    ioSaveBlockRaw sha256 fuel (Disk.ofFiles home state) src =
      Disk.ofFiles home <$> ioSaveBlockRawFiles sha256 fuel home state src := by
  obtain ⟨files, heads⟩ := state
  simp only [ioSaveBlockRaw, ioSaveBlockRawFiles, map_bind, mStrconcat_pathIn, Run.ok_bind]
  refine bind_congr fun blockHash => bind_congr fun blockSize => bind_congr fun content =>
    bind_congr fun records => bind_congr fun block => ?_
  have written := ofFiles_update_txindex home
    (Function.update files (pathIn (dirBlocks home) (blockFileName blockHash)) (some content))
    heads (blockFileName blockHash) (records.flatMap fun record => record.2.toList)
  rw [ofFiles_update_block] at written
  refine (congrArg (enchainBlock sha256 fuel · block) written.symm).trans ?_
  cases enchained : enchainBlock sha256 fuel _ block with
  | error fault => rfl
  | ok after =>
      obtain ⟨sameBlocks, sameIndex⟩ := sameFiles_enchainBlock enchained
      obtain ⟨blocks, txindex, afterHeads⟩ := after
      obtain rfl := sameBlocks
      obtain rfl := sameIndex
      rfl

theorem saveAll_ofFiles (home : Home) (saves : List (List UInt8))
    (state : Files × List Head) :
    saveAll sha256 fuel saves (Disk.ofFiles home state) =
      Disk.ofFiles home <$> saveAllFiles sha256 fuel home saves state := by
  induction saves generalizing state with
  | nil => rfl
  | cons src saves ih =>
      rw [saveAll, saveAllFiles, ioSaveBlockRaw_ofFiles]
      cases ioSaveBlockRawFiles sha256 fuel home state src with
      | error fault => rfl
      | ok next => exact ih next

end Enchaining

/-! ## What saving writes -/

namespace RawBlock

/-- The header hash of a raw block. -/
def hash (sha256 : List UInt8 → Digest) (raw : RawBlock) : Digest := sha256 raw.header.bytes

/-- The header and the transactions of a raw block, without what follows them in memory. -/
def content (raw : RawBlock) : List UInt8 := raw.header.bytes ++ raw.txs.flatMap Tx.bytes

/-- The transaction ids of a raw block. -/
def ids (sha256 : List UInt8 → Digest) (raw : RawBlock) : List Digest :=
  raw.txs.map fun tx => sha256 tx.bytes

theorem length_content (raw : RawBlock) : raw.content.length = raw.offset raw.txs.length := by
  simp [content, offset]

theorem take_bytes (raw : RawBlock) :
    raw.bytes.take (raw.offset raw.txs.length) = raw.content := by
  rw [← length_content, bytes, ← List.append_assoc]
  exact List.take_left

/-- A pointer is only followed by the index loop when an `int` can hold it, so a loop that returns
has found every transaction within that range. -/
theorem offset_lt_of_txindexLoop {sha256 : List UInt8 → Digest} (raw : RawBlock)
    {i remaining : Nat} {records : List (Nat × Digest)} (inside : i + remaining = raw.txs.length)
    (near : raw.offset i < 2 ^ 31 + 2 ^ 25)
    (looped : txindexLoop sha256 raw.bytes remaining (.ofNat (raw.offset i)) = .ok records) :
    ∀ j, i ≤ j → j < raw.txs.length → raw.offset j < 2 ^ 31 := by
  induction remaining generalizing i records with
  | zero =>
      intro j after before
      omega
  | succ remaining ih =>
      have within : i < raw.txs.length := by omega
      simp only [txindexLoop, Run.bind_eq_ok] at looped
      obtain ⟨position, indexed, digest, _, size, sized, rest, others, _⟩ := looped
      have here : raw.offset i < 2 ^ 31 := by
        rw [intIndex, toNat_ofNat_of_lt (by omega)] at indexed
        split at indexed
        · assumption
        · cases indexed
      rw [intIndex, toNat_ofNat_of_lt (by omega), if_pos here] at indexed
      obtain rfl := Except.ok.inj indexed
      obtain rfl := Except.ok.inj (sized.symm.trans (raw.txRawComputeSize_at within))
      rw [raw.cursor_add_size within] at others
      have counted := raw.counted _ (List.getElem_mem within)
      have inBound := raw.txs[i].header.inCount.toNat_lt
      have outBound := raw.txs[i].header.outCount.toNat_lt
      have next := raw.offset_succ within
      rw [← toNat_txComputeSize_of_counted counted, toNat_txComputeSize] at next
      intro j after before
      rcases Nat.eq_or_lt_of_le after with rfl | later
      · exact here
      · exact ih (by omega) (by omega) others j later before

/-- Only blocks whose transactions an `int` can address are indexed. -/
theorem addressable_of_txindexRecords {sha256 : List UInt8 → Digest} (raw : RawBlock)
    {records : List (Nat × Digest)} (indexed : txindexRecords sha256 raw.bytes = .ok records) :
    raw.offset (raw.txs.length - 1) < 2 ^ 31 := by
  rw [txindexRecords, raw.btoui_txCount, Run.ok_bind, raw.count] at indexed
  have start : raw.offset 0 < 2 ^ 31 := by
    rw [raw.offset_zero]
    decide
  cases Nat.eq_zero_or_pos raw.txs.length with
  | inl empty =>
      rw [empty]
      exact start
  | inr nonempty =>
      exact raw.offset_lt_of_txindexLoop (by omega) (by omega) indexed _ (Nat.zero_le _) (by omega)

end RawBlock

section Saving

variable {sha256 : List UInt8 → Digest} {fuel : Nat}

/-- Saving a block writes its content and its transaction ids under its hash, and no other file. -/
theorem files_of_ioSaveBlockRaw {disk after : Disk} {raw : RawBlock}
    (saved : ioSaveBlockRaw sha256 fuel disk raw.bytes = .ok after) :
    after.blocks =
        Function.update disk.blocks (blockFileName (raw.hash sha256)) (some raw.content) ∧
      after.txindex = Function.update disk.txindex (blockFileName (raw.hash sha256))
        (some ((raw.ids sha256).flatMap List.Vector.toList)) := by
  simp only [ioSaveBlockRaw, Run.bind_eq_ok] at saved
  obtain ⟨hash, hashed, size, sized, content, copied, records, indexed, block, _, enchained⟩ :=
    saved
  have small := raw.addressable_of_txindexRecords indexed
  have behind := raw.offset_end_lt small
  obtain rfl := Except.ok.inj (hashed.symm.trans (raw.blockRawComputeHash_eq sha256))
  obtain rfl := Except.ok.inj (sized.symm.trans (raw.blockRawComputeSize_eq small))
  have inside : raw.offset raw.txs.length ≤ raw.bytes.length := by
    simp [RawBlock.offset, RawBlock.bytes, sizeBlockHeader]
  rw [toNat_ofNat_of_lt (by omega), readOut_of_le inside,
    raw.take_bytes] at copied
  obtain rfl := Except.ok.inj copied
  obtain ⟨_, indexed', _, digests⟩ := raw.txindexRecords_eq sha256 small
  obtain rfl := Except.ok.inj (indexed.symm.trans indexed')
  obtain ⟨sameBlocks, sameIndex⟩ := sameFiles_enchainBlock enchained
  refine ⟨sameBlocks, ?_⟩
  rw [sameIndex, RawBlock.ids, ← digests, List.flatMap_map]
  rfl

/-- The block files and the index files after any sequence of saves. -/
theorem files_of_saveAll {raws : List RawBlock} {disk after : Disk}
    (saved : saveAll sha256 fuel (raws.map RawBlock.bytes) disk = .ok after) :
    after.blocks = replay (fun raw => blockFileName (raw.hash sha256)) RawBlock.content raws
        disk.blocks ∧
      after.txindex = replay (fun raw => blockFileName (raw.hash sha256))
        (fun raw => (raw.ids sha256).flatMap List.Vector.toList) raws disk.txindex := by
  induction raws generalizing disk with
  | nil =>
      obtain rfl := Except.ok.inj saved
      exact ⟨rfl, rfl⟩
  | cons raw raws ih =>
      rw [List.map_cons, saveAll, Run.bind_eq_ok] at saved
      obtain ⟨next, first, rest⟩ := saved
      obtain ⟨blocks, txindex⟩ := files_of_ioSaveBlockRaw first
      rw [replay_cons, replay_cons, ← blocks, ← txindex]
      exact ih rest

/-- Only blocks whose transactions an `int` can address are saved. -/
theorem addressable_of_saveAll {raws : List RawBlock} {disk after : Disk}
    (saved : saveAll sha256 fuel (raws.map RawBlock.bytes) disk = .ok after) :
    ∀ raw ∈ raws, raw.offset (raw.txs.length - 1) < 2 ^ 31 := by
  induction raws generalizing disk with
  | nil => simp
  | cons raw raws ih =>
      rw [List.map_cons, saveAll, Run.bind_eq_ok] at saved
      obtain ⟨next, first, rest⟩ := saved
      simp only [ioSaveBlockRaw, Run.bind_eq_ok] at first
      obtain ⟨_, _, _, _, _, _, records, indexed, _⟩ := first
      intro other member
      rcases List.mem_cons.mp member with rfl | later
      · exact other.addressable_of_txindexRecords indexed
      · exact ih rest other later

/-- Bytes whose transactions the index loop gets through are a raw block. -/
theorem exists_txOffset_of_txindexLoop {src : List UInt8} {i remaining offset : Nat}
    {records : List (Nat × Digest)} (walked : txOffset src i = .ok offset)
    (inside : offset ≤ src.length) (near : offset < 2 ^ 31 + 2 ^ 25)
    (looped : txindexLoop sha256 src remaining (.ofNat offset) = .ok records) :
    ∃ stop, txOffset src (i + remaining) = .ok stop ∧ stop ≤ src.length := by
  induction remaining generalizing i offset records with
  | zero => exact ⟨offset, walked, inside⟩
  | succ remaining ih =>
      have narrow : (UInt32.ofNat offset).toNat = offset :=
        toNat_ofNat_of_lt (by omega)
      simp only [txindexLoop, Run.bind_eq_ok] at looped
      obtain ⟨position, indexed, digest, hashed, size, sized, rest, others, _⟩ := looped
      rw [intIndex, narrow] at indexed
      split at indexed
      · rename_i small
        obtain rfl := Except.ok.inj indexed
        have bounded := toNat_lt_of_txRawComputeSize sized
        have within := toNat_le_of_txRawComputeHash hashed sized
        rw [List.length_drop] at within
        have next : UInt32.ofNat offset + size = .ofNat (offset + size.toNat) := by
          rw [UInt32.ofNat_add, UInt32.ofNat_toNat]
        rw [next] at others
        have step : txOffset src (i + 1) = .ok (offset + size.toNat) := by
          rw [txOffset, walked, Run.ok_bind, sized]
          rfl
        obtain ⟨stop, stops, short⟩ := ih step (by omega) (by omega) others
        exact ⟨stop, by rw [← stops]; congr 1; omega, short⟩
      · cases indexed

/-- Only raw blocks can be saved. -/
theorem exists_rawBlock_of_ioSaveBlockRaw {disk after : Disk} {src : List UInt8}
    (saved : ioSaveBlockRaw sha256 fuel disk src = .ok after) :
    ∃ raw : RawBlock, src = raw.bytes := by
  simp only [ioSaveBlockRaw, Run.bind_eq_ok] at saved
  obtain ⟨_, hashed, _, _, _, _, records, indexed, _⟩ := saved
  rw [txindexRecords, Run.bind_eq_ok] at indexed
  obtain ⟨txCount, counted, looped⟩ := indexed
  have header : sizeBlockHeader ≤ src.length := by
    rw [blockRawComputeHash, Run.bind_eq_ok] at hashed
    obtain ⟨copied, copy, _⟩ := hashed
    exact (copyOut_eq_ok.mp copy).1
  have first : txOffset src 0 = .ok sizeBlockHeader := rfl
  have near : sizeBlockHeader < 2 ^ 31 + 2 ^ 25 := by decide
  obtain ⟨stop, walked, inside⟩ := exists_txOffset_of_txindexLoop first header near looped
  rw [Nat.zero_add] at walked
  exact exists_rawBlock counted walked inside

/-- What a sequence of saves saved were raw blocks. -/
theorem exists_rawBlocks_of_saveAll {saves : List (List UInt8)} {disk after : Disk}
    (saved : saveAll sha256 fuel saves disk = .ok after) :
    ∃ raws : List RawBlock, saves = raws.map RawBlock.bytes := by
  induction saves generalizing disk with
  | nil => exact ⟨[], rfl⟩
  | cons src saves ih =>
      rw [saveAll, Run.bind_eq_ok] at saved
      obtain ⟨next, first, rest⟩ := saved
      obtain ⟨raw, rfl⟩ := exists_rawBlock_of_ioSaveBlockRaw first
      obtain ⟨raws, rfl⟩ := ih rest
      exact ⟨raw :: raws, rfl⟩

/-- What is loaded for a hash after saving blocks: the latest of them with that hash, or what was
there before. -/
theorem blockFile_saveAll {raws : List RawBlock} {disk after : Disk}
    (saved : saveAll sha256 fuel (raws.map RawBlock.bytes) disk = .ok after) (hash : Digest) :
    blockFile after hash =
      ((latest (RawBlock.hash sha256) raws hash).map RawBlock.content).or
        (blockFile disk hash) := by
  rw [blockFile, (files_of_saveAll saved).1, replay_apply,
    latest_comp (RawBlock.hash sha256) blockFileName_injective]
  rfl

/-- Saving a block leaves the file of every other hash as it was. -/
theorem blockFile_of_ne {disk after : Disk} {src : List UInt8} {saved hash : Digest}
    (save : ioSaveBlockRaw sha256 fuel disk src = .ok after)
    (hashed : blockRawComputeHash sha256 src = .ok saved) (different : hash ≠ saved) :
    blockFile after hash = blockFile disk hash := by
  simp only [ioSaveBlockRaw, Run.bind_eq_ok] at save
  obtain ⟨_, hashed', _, _, content, _, _, _, block, _, enchained⟩ := save
  obtain rfl := Except.ok.inj (hashed.symm.trans hashed')
  have names := blockFileName_injective.ne different
  rw [blockFile, (sameFiles_enchainBlock enchained).1]
  exact Function.update_of_ne names _ _

end Saving

/-! ## The store is a map -/

/-- Small blocks can be saved, on the files as on the data directory. -/
theorem exists_saveAllFiles (sha256 : List UInt8 → Digest) (fuel : Nat) (home : Home)
    (files : Files) {raws : List RawBlock}
    (small : ∀ raw ∈ raws, raw.offset raw.txs.length ≤ maxBlockSize) :
    ∃ after, saveAllFiles sha256 fuel home (raws.map RawBlock.bytes) (files, []) = .ok after ∧
      saveAll sha256 fuel (raws.map RawBlock.bytes) (Disk.ofFiles home (files, [])) =
        .ok (Disk.ofFiles home after) := by
  have headless : (Disk.ofFiles home (files, [])).heads = [] := rfl
  obtain ⟨disk, saved⟩ : ∃ disk, saveAll sha256 fuel (raws.map RawBlock.bytes)
      (Disk.ofFiles home (files, [])) = .ok disk := exists_saveAll raws headless small
  have view := saved
  rw [saveAll_ofFiles] at view
  cases result : saveAllFiles sha256 fuel home (raws.map RawBlock.bytes) (files, []) with
  | error fault =>
      rw [result] at view
      cases view
  | ok after =>
      rw [result] at view
      obtain rfl := Except.ok.inj view
      exact ⟨after, rfl, saved⟩

/-- The content of a small block is loaded as the bytes that were saved. -/
theorem RawBlock.exists_loaded (raw : RawBlock) {disk : Disk} {hash : Digest} {dst : Buffer}
    (stored : blockFile disk hash = some raw.content)
    (small : raw.offset raw.txs.length ≤ maxBlockSize) (room : maxBlockSize ≤ dst.size) :
    ∃ size loaded, blockRawComputeSize raw.bytes = .ok size ∧
      ioLoadBlockRawInto disk hash dst = .ok (true, loaded) ∧
      loaded.window 0 size.toNat = raw.bytes.take size.toNat := by
  have addressable := raw.addressable_of_le small
  refine ⟨_, dst.write 0 raw.content, raw.blockRawComputeSize_eq addressable, ?_, ?_⟩
  · exact ioLoadBlockRawInto_of_some stored (by rw [raw.length_content]; omega)
  · rw [toNat_ofNat_of_lt (by rw [maxBlockSize] at small; omega),
      raw.take_bytes, ← raw.length_content, Buffer.window_write_self]

/-- Starting from a machine without block files, saving raw blocks that fit a block buffer returns;
afterwards a hash that none of them has is not found, and a hash that some have gives the one saved
last.  Saving never changes what is loaded for another hash. -/
theorem blockStore_faithful (sha256 : List UInt8 → Digest) (fuel : Nat) (home : Home)
    (files : Files) (fresh : ∀ name, files (pathIn (dirBlocks home) name) = none) :
    (∀ raws : List RawBlock, (∀ raw ∈ raws, raw.offset raw.txs.length ≤ maxBlockSize) →
      ∃ after, saveAllFiles sha256 fuel home (raws.map RawBlock.bytes) (files, []) = .ok after ∧
        ∀ hash dst, maxBlockSize ≤ dst.size →
          ((∀ raw ∈ raws, blockRawComputeHash sha256 raw.bytes ≠ .ok hash) →
            ioLoadBlockRawInto (Disk.ofFiles home after) hash dst = .ok (false, dst)) ∧
          ∀ before raw later, raws = before ++ raw :: later →
            blockRawComputeHash sha256 raw.bytes = .ok hash →
            (∀ other ∈ later, blockRawComputeHash sha256 other.bytes ≠ .ok hash) →
            ∃ size loaded, blockRawComputeSize raw.bytes = .ok size ∧
              ioLoadBlockRawInto (Disk.ofFiles home after) hash dst = .ok (true, loaded) ∧
              loaded.window 0 size.toNat = raw.bytes.take size.toNat) ∧
    ∀ state after src saved hash, ioSaveBlockRawFiles sha256 fuel home state src = .ok after →
      blockRawComputeHash sha256 src = .ok saved → hash ≠ saved → ∀ dst,
        ioLoadBlockRawInto (Disk.ofFiles home after) hash dst =
          ioLoadBlockRawInto (Disk.ofFiles home state) hash dst := by
  constructor
  · intro raws small
    obtain ⟨after, savedFiles, saved⟩ := exists_saveAllFiles sha256 fuel home files small
    refine ⟨after, savedFiles, fun hash dst room => ?_⟩
    have loads := blockFile_saveAll saved hash
    have absent : blockFile (Disk.ofFiles home (files, [])) hash = none := fresh _
    rw [absent, Option.or_none] at loads
    have hash_ne : ∀ raw : RawBlock, blockRawComputeHash sha256 raw.bytes ≠ .ok hash →
        raw.hash sha256 ≠ hash := by
      intro raw different same
      rw [raw.blockRawComputeHash_eq] at different
      exact different (congrArg Except.ok same)
    constructor
    · intro unsaved
      rw [(latest_eq_none_iff _).mpr fun raw member => hash_ne raw (unsaved raw member)] at loads
      exact ioLoadBlockRawInto_of_none loads dst
    · intro before raw later split hashed unsaved
      have same : raw.hash sha256 = hash :=
        Except.ok.inj ((raw.blockRawComputeHash_eq sha256).symm.trans hashed)
      rw [(latest_eq_some_iff _).mpr ⟨before, later, split, same,
        fun other member => hash_ne other (unsaved other member)⟩] at loads
      exact raw.exists_loaded loads (small raw (by simp [split])) room
  · intro state after src saved hash save hashed different dst
    have view : ioSaveBlockRaw sha256 fuel (Disk.ofFiles home state) src =
        .ok (Disk.ofFiles home after) := by
      rw [ioSaveBlockRaw_ofFiles, save]
      rfl
    rw [ioLoadBlockRawInto, ioLoadBlockRawInto,
      ioLoadBlockRaw_congr (blockFile_of_ne view hashed different)]

/-- A home directory. -/
def rootHome : Home := ⟨"/root".toList, by decide⟩

/-- The transactions of `twoTxBlock` the other way round behind the same header. -/
def swappedTxBlock : RawBlock where
  header := twoTxBlock.header
  txs := twoTxBlock.txs.reverse
  trailing := []
  count := rfl
  counted := fun tx member => twoTxBlock.counted tx (List.mem_reverse.mp member)

/-- On a machine without files, three blocks are saved, the first and the last under one hash: under
it the last is loaded. -/
theorem blockStore_faithful_swappedTxBlock :
    ∃ after,
      saveAllFiles sha256 0 rootHome
        ([twoTxBlock, rootBlock, swappedTxBlock].map RawBlock.bytes) (fun _ => none, []) =
          .ok after ∧
      ∃ size loaded, blockRawComputeSize swappedTxBlock.bytes = .ok size ∧
        ioLoadBlockRawInto (Disk.ofFiles rootHome after) (twoTxBlock.hash sha256)
          { size := maxBlockSize, byte := fun _ => 0 } = .ok (true, loaded) ∧
        loaded.window 0 size.toNat = swappedTxBlock.bytes.take size.toNat := by
  obtain ⟨saving, _⟩ := blockStore_faithful sha256 0 rootHome (fun _ => none) fun _ => rfl
  obtain ⟨after, saved, loading⟩ := saving [twoTxBlock, rootBlock, swappedTxBlock] (by
    intro raw member
    simp only [List.mem_cons, List.not_mem_nil, or_false] at member
    obtain rfl | rfl | rfl := member <;> decide)
  obtain ⟨_, found⟩ := loading (twoTxBlock.hash sha256)
    { size := maxBlockSize, byte := fun _ => 0 } le_rfl
  have headers : swappedTxBlock.header = twoTxBlock.header := rfl
  have hashed := swappedTxBlock.blockRawComputeHash_eq sha256
  rw [headers] at hashed
  have split : [twoTxBlock, rootBlock, swappedTxBlock] =
      [twoTxBlock, rootBlock] ++ swappedTxBlock :: [] := rfl
  refine ⟨after, saved, ?_⟩
  exact found [twoTxBlock, rootBlock] swappedTxBlock [] split hashed (by simp)

end Freecoin
