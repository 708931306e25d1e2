import Freecoin.ChainCleaning

/-!
# Enchaining a block

`enchain_block` moves the head a block is built on forward to the block.  It trusts the previous
hash alone: a block of height 0 ends every walk, so moving a head there forgets what the head led
to.  A block that is built on no head gets none, and without any head nothing happens at all.
-/

namespace Freecoin

open Foundation

/-! ## The cases of `enchain_block` -/

theorem enchainWalks_eq_true_iff {disk : Disk} {blockHash : Digest} {fuel : Nat}
    {heads : List Head} {met : Bool}
    (walked : enchainWalks disk blockHash fuel heads = .ok met) :
    met = true ↔ ∃ head ∈ heads, Walk.Visits disk.link head.hash blockHash := by
  induction heads with
  | nil =>
      obtain rfl := Except.ok.inj walked
      simp
  | cons head heads ih =>
      rw [enchainWalks, Run.bind_eq_ok] at walked
      obtain ⟨here, first, rest⟩ := walked
      have here_iff := enchainWalk_eq_true_iff first
      rw [List.exists_mem_cons_iff, ← here_iff]
      cases here with
      | true =>
          obtain rfl := Except.ok.inj rest
          simp
      | false =>
          rw [ih rest]
          simp

theorem exists_enchainWalks {disk : Disk} (readable : disk.Readable) {blockHash : Digest}
    {fuel : Nat} (heads : List Head)
    (ends : ∀ hash, ∃ visited,
      Walk.trail (Walk.stopAt disk.link (· = blockHash)) fuel hash = some visited) :
    ∃ met, enchainWalks disk blockHash fuel heads = .ok met := by
  induction heads with
  | nil => exact ⟨false, rfl⟩
  | cons head heads ih =>
      obtain ⟨visited, walkEnds⟩ := ends head.hash
      obtain ⟨here, walked⟩ := exists_enchainWalk readable walkEnds
      rw [enchainWalks, walked, Run.ok_bind]
      cases here with
      | true => exact ⟨true, rfl⟩
      | false => exact ih

theorem hash_eq_of_find? {heads : List Head} {prevHash : Digest} {head : Head}
    (found : heads.find? (fun head => prevHash = head.hash) = some head) :
    head.hash = prevHash := by
  have names := List.find?_some found
  simp only [decide_eq_true_eq] at names
  exact names.symm

/-- The head moved forward to a block. -/
def Head.forward (head : Head) (blockHash : Digest) : Head :=
  { head with height := head.height + 1, hash := blockHash }

section Cases

variable {sha256 : List UInt8 → Digest} {disk : Disk} {block : Block} {fuel : Nat}

/-- What `enchain_block` does with a stored block: nothing without heads; otherwise it cleans, after
moving a head forward if the block is reached from none and is built on one. -/
inductive Enchains (sha256 : List UInt8 → Digest) (fuel : Nat) (disk : Disk) (block : Block)
    (after : Disk) : Prop
  | headless : disk.heads = [] → after = disk → Enchains sha256 fuel disk block after
  | reached : disk.Reached (blockComputeHash sha256 block) → chainClean fuel disk = .ok after →
      Enchains sha256 fuel disk block after
  | forward (head : Head) (i : Nat) : ¬ disk.Reached (blockComputeHash sha256 block) →
      disk.heads.find? (fun head => block.header.prevHash = head.hash) = some head →
      disk.heads[i]? = some head →
      chainClean fuel (ioHeadUpdate disk i (head.forward (blockComputeHash sha256 block))) =
        .ok after → Enchains sha256 fuel disk block after
  | unplaced : ¬ disk.Reached (blockComputeHash sha256 block) →
      (∀ head ∈ disk.heads, head.hash ≠ block.header.prevHash) →
      chainClean fuel disk = .ok after → Enchains sha256 fuel disk block after

theorem enchains_of_enchainBlock {after : Disk} {header : BlockHeader}
    (stored : ioLoadBlockHeader disk (blockComputeHash sha256 block) = .ok (some header))
    (enchained : enchainBlock sha256 fuel disk block = .ok after) :
    Enchains sha256 fuel disk block after := by
  simp only [enchainBlock, stored, Run.ok_bind] at enchained
  split at enchained
  · rename_i none
    exact .headless (List.length_eq_zero_iff.mp none) (Except.ok.inj enchained).symm
  · obtain ⟨met, walked, rest⟩ := Run.bind_eq_ok.mp enchained
    have met_iff := enchainWalks_eq_true_iff walked
    split at rest
    · rename_i found
      exact .reached (met_iff.mp found) rest
    · rename_i missed
      have unreached : ¬ disk.Reached (blockComputeHash sha256 block) :=
        fun reached => missed (met_iff.mpr reached)
      split at rest
      · rename_i head i found
        have here := List.mem_of_find?_eq_some found
        rw [List.mk_mem_zipIdx_iff_getElem?] at here
        refine .forward head i unreached ?_ here rest
        rw [← List.zipIdx_map_fst 0 disk.heads, List.find?_map]
        exact congrArg (Option.map Prod.fst) found
      · rename_i nowhere
        refine .unplaced unreached (fun head member names => ?_) rest
        obtain ⟨i, here⟩ := List.getElem?_of_mem member
        have tested := List.find?_eq_none.mp nowhere (head, i)
          (List.mk_mem_zipIdx_iff_getElem?.mpr here)
        simp only [decide_eq_true_eq] at tested
        exact tested names.symm

/-- Without cycles `enchain_block` returns once its budget is large enough. -/
theorem exists_enchainBlock (forest : disk.Forest) :
    ∃ budget, ∀ fuel, budget ≤ fuel → ∃ after, enchainBlock sha256 fuel disk block = .ok after := by
  have acyclic : ∀ hash, ¬ Relation.TransGen
      (Walk.Step (Walk.stopAt disk.link (· = blockComputeHash sha256 block))) hash hash :=
    fun hash cycle => forest.acyclic_link hash (cycle.lift id fun _ _ step => step.of_stopAt)
  obtain ⟨walkBudget, ends⟩ := Walk.exists_trail acyclic
  obtain ⟨cleanBudget, cleans⟩ := exists_chainClean forest
  refine ⟨max walkBudget cleanBudget, fun fuel enough => ?_⟩
  have cleaned := cleans fuel (le_of_max_le_right enough)
  obtain ⟨loaded, load⟩ := forest.readable (blockComputeHash sha256 block)
  obtain ⟨met, walked⟩ := exists_enchainWalks forest.readable disk.heads fun hash => by
    obtain ⟨visited, walkEnds⟩ := ends hash
    exact ⟨visited, Walk.trail_of_le walkEnds (le_of_max_le_left enough)⟩
  simp only [enchainBlock, load, Run.ok_bind]
  split
  · exact ⟨disk, rfl⟩
  · cases loaded with
    | none => exact cleaned disk.heads
    | some header =>
        simp only [walked, Run.ok_bind]
        split
        · exact cleaned disk.heads
        · split
          · exact cleaned _
          · exact cleaned disk.heads

end Cases

/-! ## Moving a head forward -/

namespace Disk

theorem hasHead_iff {disk : Disk} {hash : Digest} :
    disk.HasHead hash ↔ 0 < disk.headCount hash := by
  rw [headCount, List.count_pos_iff, List.mem_map]
  rfl

theorem reached_iff_hasHead {disk : Disk} {hash : Digest} :
    disk.Reached hash ↔ ∃ top, disk.HasHead top ∧ Walk.Visits disk.link top hash := by
  constructor
  · rintro ⟨head, member, visits⟩
    exact ⟨head.hash, ⟨head, member, rfl⟩, visits⟩
  · rintro ⟨_, ⟨head, member, rfl⟩, visits⟩
    exact ⟨head, member, visits⟩

theorem HasHead.reached {disk : Disk} {hash : Digest} (has : disk.HasHead hash)
    (readable : disk.Readable) (stored : disk.Stored hash) : disk.Reached hash :=
  reached_iff_hasHead.mpr ⟨hash, has, .self (readable.present_iff.mpr stored)⟩

theorem Shared.hasHead {disk : Disk} {hash : Digest} (shared : disk.Shared hash) :
    disk.HasHead hash :=
  hasHead_iff.mpr (Nat.lt_of_lt_of_le Nat.zero_lt_two shared.2)

theorem SharedTip.only {disk : Disk} {hash top : Digest} (tip : disk.SharedTip hash)
    (has : disk.HasHead top) (visits : Walk.Visits disk.link top hash) : top = hash := by
  obtain ⟨head, member, rfl⟩ := has
  exact tip.2 head member visits

end Disk

section Forward

variable {disk : Disk} {head : Head} {i : Nat} {blockHash : Digest}
  (here : disk.heads[i]? = some head)

include here

theorem hasHead_of_getElem? : disk.HasHead head.hash := ⟨head, List.mem_of_getElem? here, rfl⟩

/-- The head that is moved leaves its hash and takes that of the block. -/
theorem headCount_forward (hash : Digest) :
    (ioHeadUpdate disk i (head.forward blockHash)).headCount hash =
      disk.headCount hash - (if head.hash = hash then 1 else 0) +
        if blockHash = hash then 1 else 0 := by
  obtain ⟨inside, rfl⟩ := List.getElem?_eq_some_iff.mp here
  change ((disk.heads.set i (disk.heads[i].forward blockHash)).map Head.hash).count hash = _
  rw [List.map_set, List.count_set (by rwa [List.length_map]), List.getElem_map]
  simp only [Disk.headCount, Head.forward, beq_iff_eq]

theorem hasHead_forward_iff {hash : Digest} :
    (ioHeadUpdate disk i (head.forward blockHash)).HasHead hash ↔
      hash = blockHash ∨ disk.HasHead hash ∧ (hash ≠ head.hash ∨ 2 ≤ disk.headCount hash) := by
  rw [Disk.hasHead_iff, Disk.hasHead_iff, headCount_forward here]
  by_cases new : blockHash = hash
  · simp [new]
  · have other : hash ≠ blockHash := Ne.symm new
    by_cases left : head.hash = hash
    · simp only [new, left, other, if_true, if_false, ne_eq, not_true_eq_false, false_or]
      omega
    · have stays : hash ≠ head.hash := Ne.symm left
      simp [new, left, other, stays]

end Forward

/-- A stored block that no head reaches is the hash of no head. -/
theorem not_hasHead_of_not_reached {disk : Disk} {blockHash : Digest} {header : BlockHeader}
    (stored : ioLoadBlockHeader disk blockHash = .ok (some header))
    (unreached : ¬ disk.Reached blockHash) : ¬ disk.HasHead blockHash := by
  rintro ⟨head, member, rfl⟩
  exact unreached ⟨head, member, .self (Disk.present_of_loaded stored)⟩

/-- From a stored block the walk goes on with its previous hash, unless it has height 0. -/
theorem visits_loaded_iff {disk : Disk} {blockHash : Digest} {header : BlockHeader}
    (stored : ioLoadBlockHeader disk blockHash = .ok (some header)) {hash : Digest} :
    Walk.Visits disk.link blockHash hash ↔
      hash = blockHash ∨ header.height ≠ 0 ∧ Walk.Visits disk.link header.prevHash hash := by
  constructor
  · intro visits
    rcases visits.cases_start with same | ⟨parent, step, later⟩
    · exact Or.inl same
    · obtain ⟨found, loaded, nonzero, rfl⟩ := Disk.exists_loaded_of_step step
      cases stored.symm.trans loaded
      exact Or.inr ⟨nonzero, later⟩
  · rintro (rfl | ⟨nonzero, visits⟩)
    · exact .self (Disk.present_of_loaded stored)
    · exact visits.head (Disk.step_of_loaded stored nonzero)

/-! ## No block is lost -/

/-- Every block that was reached is reached, and so is the new one. -/
structure KeepsBlocks (disk after : Disk) (blockHash : Digest) : Prop where
  kept : ∀ hash, disk.Reached hash → after.Reached hash
  enchained : after.Reached blockHash

/-- A block with this header is enchained without loss: it is built on a head; no other block is a
tip that several heads share; and the block does not end the walk, or no block is stored for that
head, or another head visits it, or there are just two heads for it, one of which stays. -/
structure ForwardsSafely (disk : Disk) (header : BlockHeader) : Prop where
  onHead : disk.HasHead header.prevHash
  untied : ∀ hash, disk.SharedTip hash → hash = header.prevHash
  unbroken : header.height ≠ 0 ∨ ¬ disk.Stored header.prevHash ∨
    (∃ other, disk.HasHead other ∧ other ≠ header.prevHash ∧
      Walk.Visits disk.link other header.prevHash) ∨
    disk.headCount header.prevHash = 2

section Keeping

variable {disk : Disk} {blockHash : Digest} {header : BlockHeader} (forest : disk.Forest)
  (stored : ioLoadBlockHeader disk blockHash = .ok (some header))
  (fresh : ¬ disk.HasHead blockHash) {head : Head} {i : Nat}
  (here : disk.heads[i]? = some head) (names : head.hash = header.prevHash)

section Safe

variable (safe : ForwardsSafely disk header)

include forest stored here names safe in
/-- After a safe move, what a head was on is visited from a head. -/
theorem exists_hasHead_forward {top : Digest} (has : disk.HasHead top) (present : disk.Stored top) :
    ∃ next, (ioHeadUpdate disk i (head.forward blockHash)).HasHead next ∧
      Walk.Visits disk.link next top := by
  have self : Walk.Visits disk.link top top := .self (forest.readable.present_iff.mpr present)
  by_cases moved : top = head.hash
  · subst moved
    rcases safe.unbroken with nonzero | missing | ⟨other, hasOther, different, visits⟩ | two
    · refine ⟨blockHash, (hasHead_forward_iff here).mpr (Or.inl rfl), ?_⟩
      rw [visits_loaded_iff stored, ← names]
      exact Or.inr ⟨nonzero, self⟩
    · rw [← names] at missing
      exact absurd present missing
    · rw [← names] at different visits
      exact ⟨other, (hasHead_forward_iff here).mpr (Or.inr ⟨hasOther, Or.inl different⟩), visits⟩
    · rw [← names] at two
      exact ⟨head.hash, (hasHead_forward_iff here).mpr (Or.inr ⟨has, Or.inr two.ge⟩), self⟩
  · exact ⟨top, (hasHead_forward_iff here).mpr (Or.inr ⟨has, Or.inl moved⟩), self⟩

include forest stored here names safe in
theorem reached_forward {hash : Digest} (reached : disk.Reached hash) :
    (ioHeadUpdate disk i (head.forward blockHash)).Reached hash := by
  obtain ⟨top, has, visits⟩ := Disk.reached_iff_hasHead.mp reached
  obtain ⟨next, hasNext, visitsTop⟩ := exists_hasHead_forward forest stored here names safe has
    (forest.readable.present_iff.mp visits.start_present)
  exact Disk.reached_iff_hasHead.mpr ⟨next, hasNext, visitsTop.trans visits⟩

include forest stored fresh here names safe in
/-- A safe move makes no tip that heads share. -/
theorem not_sharedTip_forward (hash : Digest) :
    ¬ (ioHeadUpdate disk i (head.forward blockHash)).SharedTip hash := by
  intro tip
  have several := tip.1.2
  rw [headCount_forward here] at several
  have old : blockHash ≠ hash := by
    rintro rfl
    rw [Disk.hasHead_iff] at fresh
    rw [if_pos rfl] at several
    omega
  rw [if_neg old, Nat.add_zero] at several
  by_cases moved : head.hash = hash
  · rw [if_pos moved] at several
    rcases safe.unbroken with nonzero | missing | ⟨other, hasOther, different, visits⟩ | two
    · refine old (tip.only ((hasHead_forward_iff here).mpr (Or.inl rfl)) ?_)
      change Walk.Visits disk.link blockHash hash
      rw [visits_loaded_iff stored, ← names, moved]
      exact Or.inr ⟨nonzero, .self (forest.readable.present_iff.mpr tip.1.1)⟩
    · rw [← names, moved] at missing
      exact missing tip.1.1
    · rw [← names] at different visits
      have hasNext : (ioHeadUpdate disk i (head.forward blockHash)).HasHead other :=
        (hasHead_forward_iff here).mpr (Or.inr ⟨hasOther, Or.inl different⟩)
      rw [moved] at different visits
      exact different (tip.only hasNext visits)
    · rw [← names, moved] at two
      omega
  · rw [if_neg moved] at several
    have shared : ¬ disk.SharedTip hash :=
      fun before => moved (names.trans (safe.untied hash before).symm)
    -- another head visited the block before, and what visits that head now is another one, too
    refine shared ⟨⟨tip.1.1, several⟩, fun other member visits => ?_⟩
    obtain ⟨next, hasNext, visitsOther⟩ := exists_hasHead_forward forest stored here names safe
      ⟨other, member, rfl⟩ (forest.readable.present_iff.mp visits.start_present)
    have same := tip.only hasNext (visitsOther.trans visits)
    rw [same] at visitsOther
    exact visits.antisymm forest.acyclic_link visitsOther

end Safe

section Unsafe

variable {after : Disk} (keeps : KeepsBlocks disk after blockHash)
  (drops : (ioHeadUpdate disk i (head.forward blockHash)).Drops after fun other =>
    (ioHeadUpdate disk i (head.forward blockHash)).Dead other ∨
      (ioHeadUpdate disk i (head.forward blockHash)).Shared other.hash)

include forest keeps drops in
theorem not_sharedTip_of_keeps {hash : Digest} (old : disk.HasHead hash) :
    ¬ (ioHeadUpdate disk i (head.forward blockHash)).SharedTip hash := by
  intro tip
  exact not_reached_of_sharedTip drops tip
    (keeps.kept hash (old.reached forest.readable tip.1.1))

include forest stored fresh here names keeps drops in
theorem untied_of_keeps {hash : Digest} (tip : disk.SharedTip hash) : hash = header.prevHash := by
  by_contra different
  have has := tip.1.hasHead
  have old : hash ≠ blockHash := by
    rintro rfl
    exact fresh has
  refine not_sharedTip_of_keeps forest keeps drops has ⟨⟨tip.1.1, ?_⟩, ?_⟩
  · rw [headCount_forward here, if_neg (Ne.symm old), names, if_neg (Ne.symm different)]
    exact tip.1.2
  · intro other member visits
    rcases (hasHead_forward_iff here).mp ⟨other, member, rfl⟩ with new | ⟨before, _⟩
    · change Walk.Visits disk.link other.hash hash at visits
      rw [new, visits_loaded_iff stored, ← names] at visits
      rcases visits with same | ⟨_, visits⟩
      · exact absurd same old
      · have same := tip.only (hasHead_of_getElem? here) visits
        exact absurd (same.symm.trans names) different
    · exact tip.only before visits

include forest stored fresh here names keeps drops in
theorem unbroken_of_keeps (bottom : header.height = 0) (present : disk.Stored header.prevHash)
    (alone : ∀ other, disk.HasHead other → Walk.Visits disk.link other header.prevHash →
      other = header.prevHash) : disk.headCount header.prevHash = 2 := by
  have has : disk.HasHead header.prevHash := names ▸ hasHead_of_getElem? here
  have old : blockHash ≠ header.prevHash := by
    rintro same
    exact fresh (same ▸ has)
  have only : ∀ next, (ioHeadUpdate disk i (head.forward blockHash)).HasHead next →
      Walk.Visits disk.link next header.prevHash → next = header.prevHash := by
    intro next hasNext visits
    rcases (hasHead_forward_iff here).mp hasNext with rfl | ⟨before, _⟩
    · rw [visits_loaded_iff stored] at visits
      rcases visits with same | ⟨nonzero, _⟩
      · exact same.symm
      · exact absurd bottom nonzero
    · exact alone next before visits
  have reached := reached_of_drops drops (keeps.kept _ (has.reached forest.readable present))
  obtain ⟨next, hasNext, visits⟩ := Disk.reached_iff_hasHead.mp reached
  obtain rfl := only next hasNext visits
  have stays : 2 ≤ disk.headCount header.prevHash := by
    rcases (hasHead_forward_iff here).mp hasNext with same | ⟨_, moved | several⟩
    · exact absurd same.symm old
    · exact absurd names.symm moved
    · exact several
  by_contra more
  refine not_sharedTip_of_keeps forest keeps drops has ⟨⟨present, ?_⟩, ?_⟩
  · rw [headCount_forward here, if_pos names, if_neg old]
    omega
  · exact fun other member otherVisits => only other.hash ⟨other, member, rfl⟩ otherVisits

end Unsafe

include forest stored fresh here names in
theorem keepsBlocks_forward_iff {fuel : Nat} {after : Disk}
    (cleaned : chainClean fuel (ioHeadUpdate disk i (head.forward blockHash)) = .ok after) :
    KeepsBlocks disk after blockHash ↔ ForwardsSafely disk header := by
  have moved : (ioHeadUpdate disk i (head.forward blockHash)).Forest :=
    forest.of_sameFiles ⟨rfl, rfl⟩
  have drops := drops_of_chainClean moved.readable cleaned
  constructor
  · intro keeps
    refine ⟨names ▸ hasHead_of_getElem? here, fun hash tip => ?_, ?_⟩
    · exact untied_of_keeps forest stored fresh here names keeps drops tip
    · by_contra broken
      simp only [not_or, not_exists, not_and, not_not, ne_eq] at broken
      obtain ⟨bottom, present, alone, count⟩ := broken
      refine count (unbroken_of_keeps forest stored fresh here names keeps drops bottom present ?_)
      intro other has visits
      by_contra different
      exact alone other has different visits
  · intro safe
    have untied := not_sharedTip_forward forest stored fresh here names safe
    have new : (ioHeadUpdate disk i (head.forward blockHash)).Reached blockHash :=
      Disk.reached_iff_hasHead.mpr ⟨blockHash, (hasHead_forward_iff here).mpr (Or.inl rfl),
        .self (Disk.present_of_loaded stored)⟩
    exact ⟨fun hash reached => reached_clean_of_reached moved drops untied
      (reached_forward forest stored here names safe reached),
      reached_clean_of_reached moved drops untied new⟩

end Keeping

/-- A block without transactions. -/
def linkBlock (prevHash : Digest) (height nonce : UInt32) : Block where
  header := { linkHeader prevHash height with nonce := nonce }
  txs := []

/-- A block that is built on no other. -/
def firstBlock : Block := linkBlock (plainDigest 0) 0 0

/-- A second block that is built on no other. -/
def rivalBlock : Block := linkBlock (plainDigest 0) 0 1

/-- A block that is built on the first one. -/
def successorBlock (height : UInt32) : Block :=
  linkBlock (blockComputeHash sha256 firstBlock) height 0

set_option maxRecDepth 100000 in
theorem firstBlock_hash_ne : plainDigest 0 ≠ blockComputeHash sha256 firstBlock := by
  decide +kernel

/-- The first block and another one are stored, and the first has a head. -/
def Disk.ofPair (block : Block) : Disk :=
  .ofHeaders
    [(blockComputeHash sha256 block, block.header),
      (blockComputeHash sha256 firstBlock, firstBlock.header)]
    [{ height := 0, chained := 0, hash := blockComputeHash sha256 firstBlock }]

section Pair

variable (block : Block)

theorem ofPair_stored : ioLoadBlockHeader (.ofPair block) (blockComputeHash sha256 block) =
    .ok (some block.header) := by
  rw [Disk.ofPair, ioLoadBlockHeader_ofHeaders, List.find?_cons_of_pos (by simp), Option.map_some]

theorem ofPair_forest (first : plainDigest 0 ≠ blockComputeHash sha256 block)
    (prev : block.header.prevHash ≠ blockComputeHash sha256 block) :
    (Disk.ofPair block).Forest := by
  let rank (hash : Digest) : Nat :=
    if hash = blockComputeHash sha256 block then 2
    else if hash = blockComputeHash sha256 firstBlock then 1 else 0
  refine forest_ofHeaders rank (fun entry member => ?_) _
  have bottom : rank (plainDigest 0) = 0 := by
    simp only [rank, if_neg first, if_neg firstBlock_hash_ne]
  rcases List.mem_pair.mp member with rfl | rfl
  · simp only [rank, if_neg prev, if_true]
    split_ifs <;> omega
  · change rank (plainDigest 0) < rank (blockComputeHash sha256 firstBlock)
    rw [bottom]
    simp only [rank, if_true]
    split_ifs <;> omega

theorem hasHead_ofPair_iff {hash : Digest} :
    (Disk.ofPair block).HasHead hash ↔ hash = blockComputeHash sha256 firstBlock := by
  simp [Disk.HasHead, Disk.ofPair, Disk.ofHeaders, eq_comm]

section Different

variable (different : blockComputeHash sha256 block ≠ blockComputeHash sha256 firstBlock)

include different

theorem ofPair_first_stored :
    ioLoadBlockHeader (.ofPair block) (blockComputeHash sha256 firstBlock) =
      .ok (some firstBlock.header) := by
  rw [Disk.ofPair, ioLoadBlockHeader_ofHeaders, List.find?_cons_of_neg (by simpa using different),
    List.find?_cons_of_pos (by simp), Option.map_some]

/-- The head of the first block leads to nothing else. -/
theorem not_reached_ofPair : ¬ (Disk.ofPair block).Reached (blockComputeHash sha256 block) := by
  have loaded := ofPair_first_stored block different
  rw [Disk.reached_iff_hasHead]
  rintro ⟨top, has, visits⟩
  rw [hasHead_ofPair_iff] at has
  rw [has, visits_loaded_iff loaded] at visits
  rcases visits with same | ⟨nonzero, _⟩
  · exact different same
  · exact nonzero rfl

end Different

/-- With a single head none is shared. -/
theorem not_sharedTip_ofPair (hash : Digest) : ¬ (Disk.ofPair block).SharedTip hash := by
  intro tip
  have single : (Disk.ofPair block).headCount hash ≤ 1 := by
    rw [Disk.headCount]
    exact List.count_le_length
  exact absurd tip.1.2 (by omega)

end Pair

set_option maxRecDepth 100000 in
theorem successorBlock_hash_ne :
    plainDigest 0 ≠ blockComputeHash sha256 (successorBlock 1) ∧
      (successorBlock 1).header.prevHash ≠ blockComputeHash sha256 (successorBlock 1) := by
  decide +kernel

set_option maxRecDepth 100000 in
theorem rivalBlock_hash_ne :
    plainDigest 0 ≠ blockComputeHash sha256 rivalBlock ∧
      blockComputeHash sha256 rivalBlock ≠ blockComputeHash sha256 firstBlock := by
  decide +kernel

end Freecoin
