import Freecoin.ChainRules
import Freecoin.Walkers
import Mathlib.Logic.Relation

/-!
# Heads and tips

Heads are meant to be the blocks no other block builds on.  `enchain_block` returns at once when
there is no head, and it never creates one, so a data directory that starts empty stores blocks and
has no head for any of them.
-/

namespace Freecoin

open Foundation

/-! ## What heads are for -/

namespace Disk

/-- There is a block file under a hash. -/
def Stored (disk : Disk) (hash : Digest) : Prop := (blockFile disk hash).isSome

/-- The block stored under `child` names `parent` as its predecessor. -/
def NamesPrev (disk : Disk) (child parent : Digest) : Prop :=
  ∃ header, ioLoadBlockHeader disk child = .ok (some header) ∧ header.prevHash = parent

/-- A head references a block. -/
def HasHead (disk : Disk) (hash : Digest) : Prop := ∃ head ∈ disk.heads, head.hash = hash

/-- Heads are exactly the tips, and every stored block is reached by walking back from one. -/
structure HeadsExact (disk : Disk) : Prop where
  tip : ∀ hash, disk.Stored hash →
    (disk.HasHead hash ↔ ¬ ∃ child, child ≠ hash ∧ disk.Stored child ∧ disk.NamesPrev child hash)
  reached : ∀ hash, disk.Stored hash →
    ∃ head ∈ disk.heads, Relation.ReflTransGen disk.NamesPrev head.hash hash

theorem headsExact_empty : empty.HeadsExact where
  tip _ stored := by simp [Stored, blockFile, empty] at stored
  reached _ stored := by simp [Stored, blockFile, empty] at stored

/-- Without heads, one stored block is one too many. -/
theorem not_headsExact {disk : Disk} {hash : Digest} (headless : disk.heads = [])
    (stored : disk.Stored hash) : ¬ disk.HeadsExact := by
  intro exact
  obtain ⟨head, member, _⟩ := exact.reached hash stored
  rw [headless] at member
  contradiction

end Disk

/-! ## Saving without heads -/

section Saving

variable {sha256 : List UInt8 → Digest} {fuel : Nat}

theorem enchainBlock_of_headless {disk : Disk} (block : Block) (headless : disk.heads = []) :
    enchainBlock sha256 fuel disk block = .ok disk := by
  simp [enchainBlock, headless]

/-- Saving a block when there is no head stores the block, forgets none and creates no head. -/
theorem ioSaveBlockRaw_headless {disk after : Disk} {src : List UInt8}
    (headless : disk.heads = []) (saved : ioSaveBlockRaw sha256 fuel disk src = .ok after) :
    after.heads = [] ∧ (∀ hash, disk.Stored hash → after.Stored hash) ∧
      ∃ hash, after.Stored hash := by
  simp only [ioSaveBlockRaw, Run.bind_eq_ok] at saved
  obtain ⟨hash, _, size, _, content, _, records, _, block, _, enchained⟩ := saved
  obtain rfl := Except.ok.inj (enchained.symm.trans (enchainBlock_of_headless block headless))
  refine ⟨headless, fun other stored => ?_, hash, ?_⟩
  · by_cases same : blockFileName other = blockFileName hash
    · simp [Disk.Stored, blockFile, same]
    · simpa [Disk.Stored, blockFile, Function.update_of_ne same] using stored
  · simp [Disk.Stored, blockFile]

/-- However many blocks are saved, there is no head, and no block is forgotten. -/
theorem saveAll_headless {saves : List (List UInt8)} {disk after : Disk}
    (headless : disk.heads = []) (saved : saveAll sha256 fuel saves disk = .ok after) :
    after.heads = [] ∧ (∀ hash, disk.Stored hash → after.Stored hash) ∧
      (saves ≠ [] → ∃ hash, after.Stored hash) := by
  induction saves generalizing disk with
  | nil =>
      obtain rfl := Except.ok.inj saved
      exact ⟨headless, fun _ stored => stored, fun nonempty => absurd rfl nonempty⟩
  | cons src saves ih =>
      simp only [saveAll, Run.bind_eq_ok] at saved
      obtain ⟨next, first, rest⟩ := saved
      obtain ⟨nextHeadless, kept, hash, stored⟩ := ioSaveBlockRaw_headless headless first
      obtain ⟨afterHeadless, keptLater, _⟩ := ih nextHeadless rest
      exact ⟨afterHeadless, fun other old => keptLater other (kept other old),
        fun _ => ⟨hash, keptLater hash stored⟩⟩

/-- A raw block whose transactions can be addressed is saved without fault when there is no head. -/
theorem exists_ioSaveBlockRaw {disk : Disk} (raw : RawBlock) (headless : disk.heads = [])
    (addressable : raw.offset (raw.txs.length - 1) < 2 ^ 31) :
    ∃ after, ioSaveBlockRaw sha256 fuel disk raw.bytes = .ok after := by
  have size := raw.blockRawComputeSize_eq addressable
  obtain ⟨records, indexed, _⟩ := raw.txindexRecords_eq sha256 addressable
  have behind := raw.offset_end_lt addressable
  have narrow : raw.offset raw.txs.length < 2 ^ 32 := by omega
  have offset_eq : (UInt32.ofNat (raw.offset raw.txs.length)).toNat = raw.offset raw.txs.length :=
    UInt32.toNat_ofNat_of_lt' narrow
  have inside : raw.offset raw.txs.length ≤ raw.bytes.length := by
    simp [RawBlock.offset, RawBlock.bytes, sizeBlockHeader]
  rw [ioSaveBlockRaw, raw.blockRawComputeHash_eq, Run.ok_bind, size, Run.ok_bind, offset_eq,
    readOut_of_le inside, Run.ok_bind, indexed, Run.ok_bind,
    mBlockDeserialize_bytes raw (raw.length_txs_lt addressable), Run.ok_bind]
  exact ⟨_, enchainBlock_of_headless _ headless⟩

/-- Raw blocks that fit a block buffer can be saved one after the other. -/
theorem exists_saveAll (raws : List RawBlock) {disk : Disk} (headless : disk.heads = [])
    (small : ∀ raw ∈ raws, raw.offset raw.txs.length ≤ maxBlockSize) :
    ∃ after, saveAll sha256 fuel (raws.map RawBlock.bytes) disk = .ok after := by
  induction raws generalizing disk with
  | nil => exact ⟨disk, rfl⟩
  | cons raw raws ih =>
      obtain ⟨next, first⟩ :=
        exists_ioSaveBlockRaw raw headless (raw.addressable_of_le (small raw (by simp)))
      obtain ⟨nextHeadless, _⟩ := ioSaveBlockRaw_headless headless first
      obtain ⟨after, rest⟩ := ih nextHeadless fun other member => small other (by simp [member])
      exact ⟨after, by rw [List.map_cons, saveAll, first, Run.ok_bind, rest]⟩

end Saving

/-- Starting from an empty directory, heads are exactly the tips only until the first block is
saved, in whatever order and number blocks arrive; and every sequence of blocks that fit a block
buffer can be saved. -/
theorem headsExact_saveAll_iff (sha256 : List UInt8 → Digest) (fuel : Nat) :
    (∀ saves after, saveAll sha256 fuel saves Disk.empty = .ok after →
      (after.HeadsExact ↔ saves = [])) ∧
    ∀ raws : List RawBlock, (∀ raw ∈ raws, raw.offset raw.txs.length ≤ maxBlockSize) →
      ∃ after, saveAll sha256 fuel (raws.map RawBlock.bytes) Disk.empty = .ok after := by
  refine ⟨fun saves after saved => ?_, fun raws small => exists_saveAll raws rfl small⟩
  obtain ⟨headless, _, stored⟩ := saveAll_headless rfl saved
  constructor
  · intro exact
    by_contra nonempty
    obtain ⟨hash, found⟩ := stored nonempty
    exact Disk.not_headsExact headless found exact
  · rintro rfl
    obtain rfl := Except.ok.inj saved
    exact Disk.headsExact_empty

/-- Saving the first block of a chain leaves it without a head. -/
theorem headsExact_rootBlock_fails :
    ∃ after, saveAll sha256 0 [rootBlock.bytes] Disk.empty = .ok after ∧ ¬ after.HeadsExact := by
  have headless : Disk.empty.heads = [] := rfl
  obtain ⟨after, saved⟩ := exists_saveAll [rootBlock] headless (by
    simp [rootBlock, RawBlock.offset, sizeBlockHeader, maxBlockSize])
  obtain ⟨afterHeadless, _, stored⟩ := saveAll_headless headless saved
  obtain ⟨hash, found⟩ := stored (by simp)
  exact ⟨after, saved, Disk.not_headsExact afterHeadless found⟩

end Freecoin
