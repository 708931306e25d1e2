import Freecoin.Enchaining

/-!
# The heights of the heads

A head keeps the height of its block.  When `enchain_block` moves a head forward it counts the
height up and does not look at the height in the block's header, so the two stay equal only as long
as the headers count on from the heads.
-/

namespace Freecoin

open Foundation

/-- Every head has the height that the header of its block has. -/
def Disk.HeightsMatch (disk : Disk) : Prop :=
  ∀ head ∈ disk.heads, ∀ header, ioLoadBlockHeader disk head.hash = .ok (some header) →
    head.height = header.height

/-- If the block is not reached yet and is built on a head, its height is the next one. -/
def HeightContinues (sha256 : List UInt8 → Digest) (disk : Disk) (block : Block) : Prop :=
  ¬ disk.Reached (blockComputeHash sha256 block) →
    ∀ head, disk.heads.find? (fun head => block.header.prevHash = head.hash) = some head →
      block.header.height = head.height + 1

/-- `enchain_block` of a stored block that continues the heights. -/
def ContinuingStep (sha256 : List UInt8 → Digest) (disk after : Disk) : Prop :=
  ∃ block fuel,
    ioLoadBlockHeader disk (blockComputeHash sha256 block) = .ok (some block.header) ∧
      HeightContinues sha256 disk block ∧ enchainBlock sha256 fuel disk block = .ok after

/-! ## One step -/

/-- Deleting heads changes no height. -/
theorem heightsMatch_of_drops {disk after : Disk} {dropped : Head → Prop}
    (drops : disk.Drops after dropped) (matched : disk.HeightsMatch) : after.HeightsMatch := by
  intro head member header loaded
  rw [drops.files.ioLoadBlockHeader_eq] at loaded
  exact matched head (drops.mem_iff.mp member).1 header loaded

section Forward

variable {disk : Disk} {blockHash : Digest} {header : BlockHeader}
  (stored : ioLoadBlockHeader disk blockHash = .ok (some header)) {head : Head} {i : Nat}

include stored in
theorem heightsMatch_forward (matched : disk.HeightsMatch)
    (continues : header.height = head.height + 1) :
    (ioHeadUpdate disk i (head.forward blockHash)).HeightsMatch := by
  intro other member found loaded
  change ioLoadBlockHeader disk other.hash = .ok (some found) at loaded
  rcases List.mem_or_eq_of_mem_set member with old | rfl
  · exact matched other old found loaded
  · cases stored.symm.trans loaded
    exact continues.symm

include stored in
/-- The head that is moved to a block not reached before is not deleted. -/
theorem forward_mem_of_chainClean (readable : disk.Readable) (unreached : ¬ disk.Reached blockHash)
    (here : disk.heads[i]? = some head) {fuel : Nat} {after : Disk}
    (cleaned : chainClean fuel (ioHeadUpdate disk i (head.forward blockHash)) = .ok after) :
    head.forward blockHash ∈ after.heads := by
  have fresh := not_hasHead_of_not_reached stored unreached
  obtain ⟨inside, _⟩ := List.getElem?_eq_some_iff.mp here
  have drops := drops_of_chainClean
    (show (ioHeadUpdate disk i (head.forward blockHash)).Readable from readable) cleaned
  refine drops.mem_iff.mpr ⟨List.mem_of_getElem? (List.getElem?_set_self inside), ?_⟩
  rintro (⟨other, member, different, visits⟩ | shared)
  · rcases (hasHead_forward_iff here).mp ⟨other, member, rfl⟩ with same | ⟨old, _⟩
    · exact different same
    · exact unreached (Disk.reached_iff_hasHead.mpr ⟨other.hash, old, visits⟩)
  · have several := shared.2
    rw [Disk.hasHead_iff] at fresh
    rw [headCount_forward here] at several
    change 2 ≤ disk.headCount blockHash - _ + (if blockHash = blockHash then 1 else 0) at several
    rw [if_pos rfl] at several
    omega

end Forward

section Step

variable {sha256 : List UInt8 → Digest} {disk after : Disk} {block : Block} {fuel : Nat}
  (stored : ioLoadBlockHeader disk (blockComputeHash sha256 block) = .ok (some block.header))
  (enchained : enchainBlock sha256 fuel disk block = .ok after)

include stored enchained

theorem heightsMatch_of_continues (matched : disk.HeightsMatch)
    (continues : HeightContinues sha256 disk block) : after.HeightsMatch := by
  cases enchains_of_enchainBlock stored enchained with
  | headless _ same => exact same ▸ matched
  | reached _ cleaned => exact heightsMatch_of_drops (drops_of_chainCleanWalks cleaned) matched
  | forward head i unreached found _ cleaned =>
      exact heightsMatch_of_drops (drops_of_chainCleanWalks cleaned)
        (heightsMatch_forward stored matched (continues unreached head found))
  | unplaced _ _ cleaned => exact heightsMatch_of_drops (drops_of_chainCleanWalks cleaned) matched

/-- A block that does not continue the heights leaves a head with a height that is not its
block's. -/
theorem continues_of_heightsMatch (readable : disk.Readable) (matched : after.HeightsMatch) :
    HeightContinues sha256 disk block := by
  intro unreached first firstFound
  cases enchains_of_enchainBlock stored enchained with
  | headless none _ =>
      rw [none] at firstFound
      cases firstFound
  | reached reached _ => exact absurd reached unreached
  | forward head i _ found here cleaned =>
      cases firstFound.symm.trans found
      have kept := forward_mem_of_chainClean stored readable unreached here cleaned
      have files := (drops_of_chainCleanWalks cleaned).files
      refine (matched _ kept block.header ?_).symm
      rw [files.ioLoadBlockHeader_eq]
      exact stored
  | unplaced _ nowhere _ =>
      exact absurd (hash_eq_of_find? firstFound)
        (nowhere first (List.mem_of_find?_eq_some firstFound))

end Step

/-! ## Runs -/

/-- In every run of `enchain_block` whose blocks continue the heights, from a state where the heads
have the heights of their blocks, they have them in every state. -/
theorem heightsMatch_of_run (sha256 : List UInt8 → Digest) (disk after : Disk)
    (start : disk.HeightsMatch)
    (run : Relation.ReflTransGen (ContinuingStep sha256) disk after) : after.HeightsMatch := by
  induction run with
  | refl => exact start
  | tail _ step ih =>
      obtain ⟨block, fuel, stored, continues, enchained⟩ := step
      exact heightsMatch_of_continues stored enchained ih continues

theorem heightsMatch_ofPair {block : Block}
    (different : blockComputeHash sha256 block ≠ blockComputeHash sha256 firstBlock) :
    (Disk.ofPair block).HeightsMatch := by
  intro head member header loaded
  obtain rfl := List.mem_singleton.mp member
  cases (ofPair_first_stored block different).symm.trans loaded
  rfl

/-- A run that enchains the successor of the first block. -/
theorem heightsMatch_successorBlock :
    (Disk.ofPair (successorBlock 1)).HeightsMatch ∧ ∃ after,
      Relation.ReflTransGen (ContinuingStep sha256) (.ofPair (successorBlock 1)) after ∧
        after.HeightsMatch := by
  have start := heightsMatch_ofPair (Ne.symm successorBlock_hash_ne.2)
  have forest := ofPair_forest _ successorBlock_hash_ne.1 successorBlock_hash_ne.2
  obtain ⟨budget, returns⟩ : ∃ budget, ∀ fuel, budget ≤ fuel → ∃ after,
      enchainBlock sha256 fuel (.ofPair (successorBlock 1)) (successorBlock 1) = .ok after :=
    exists_enchainBlock forest
  obtain ⟨after, enchained⟩ := returns budget le_rfl
  have continues : HeightContinues sha256 (.ofPair (successorBlock 1)) (successorBlock 1) := by
    intro _ head found
    obtain rfl := List.mem_singleton.mp (List.mem_of_find?_eq_some found)
    rfl
  have run : Relation.ReflTransGen (ContinuingStep sha256) (.ofPair (successorBlock 1)) after :=
    .single ⟨successorBlock 1, budget, ofPair_stored _, continues, enchained⟩
  exact ⟨start, after, run, heightsMatch_of_run sha256 _ after start run⟩

set_option maxRecDepth 100000 in
theorem highBlock_hash_ne :
    plainDigest 0 ≠ blockComputeHash sha256 (successorBlock 5) ∧
      (successorBlock 5).header.prevHash ≠ blockComputeHash sha256 (successorBlock 5) := by
  decide +kernel

/-- A block of height 5 on a head of height 0 leaves a head of height 1. -/
theorem not_heightsMatch_highBlock :
    (Disk.ofPair (successorBlock 5)).HeightsMatch ∧
      ioLoadBlockHeader (.ofPair (successorBlock 5)) (blockComputeHash sha256 (successorBlock 5)) =
        .ok (some (successorBlock 5).header) ∧
      ∃ fuel after,
        enchainBlock sha256 fuel (.ofPair (successorBlock 5)) (successorBlock 5) = .ok after ∧
        ¬ after.HeightsMatch := by
  have different := Ne.symm highBlock_hash_ne.2
  have forest := ofPair_forest _ highBlock_hash_ne.1 highBlock_hash_ne.2
  have stored := ofPair_stored (successorBlock 5)
  obtain ⟨budget, returns⟩ := exists_enchainBlock forest
  obtain ⟨after, enchained⟩ := returns budget le_rfl
  refine ⟨heightsMatch_ofPair different, stored, budget, after, enchained, fun matched => ?_⟩
  have continues := continues_of_heightsMatch stored enchained forest.readable matched
  have next := continues (not_reached_ofPair _ different)
    { height := 0, chained := 0, hash := blockComputeHash sha256 firstBlock }
    (List.find?_cons_of_pos (decide_eq_true rfl))
  exact absurd next (by decide)

end Freecoin
