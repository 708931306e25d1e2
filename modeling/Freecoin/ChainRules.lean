import Freecoin.ProofOfWork
import Freecoin.Walkers

/-!
# Heights, times and targets

What `validate_block_chain` really tests of a block with a nonzero height: that its time is later
than its predecessor's, that its height is at least the retarget interval, and that two buffers
come out equal.  The height is never compared with the predecessor's, and below the interval no
target passes, because the source compares the addresses of the two target fields.
-/

namespace Freecoin

open Foundation

/-- The target test of `validate_block_chain` from the retarget interval on. -/
def targetVerdict (store : Store) (leftovers : ChainLeftovers) (block : Block) : Run UInt8 := do
  let before : Target :=
    { mantissa := leftovers.hashBuffer1.toList.getD 0 0
      exponent := leftovers.hashBuffer1.toList.getD 1 0 }
  let next ← chainComputeNextTarget store leftovers.headerA block.header before
  let bigTargetTrue := next.mantissa :: next.exponent :: leftovers.hashBuffer1.toList.drop 2
  let bigTargetThis ← targetToBtarget block.header.target leftovers.hashBuffer2.toList
  if bigTargetTrue ≠ bigTargetThis then return errBlockBadTarget
  return 0

section Verdict

variable {primitives : Primitives} {store : Store} {leftovers : ChainLeftovers}
  {block prevBlock : Block}

/-- The verdict on a block whose predecessor is stored and earlier. -/
theorem validateBlockChain_of_stored (nonzero : block.header.height ≠ 0)
    (stored : store.loadBlock block.header.prevHash = .ok (some prevBlock))
    (later : prevBlock.header.time < block.header.time) :
    validateBlockChain primitives store leftovers block =
      if block.header.height < chainRecalcInterval then .ok errBlockBadTarget
      else targetVerdict store leftovers block := by
  have notEarlier : ¬ block.header.time ≤ prevBlock.header.time := UInt32.not_le.mpr later
  rw [validateBlockChain, if_neg nonzero, stored, Run.ok_bind]
  simp only [notEarlier, if_false, ne_eq, reduceCtorEq, not_false_eq_true, if_true]
  rfl

/-- What an accepted block of nonzero height has been tested for. -/
theorem tested_of_validateBlockChain (nonzero : block.header.height ≠ 0)
    (accepted : validateBlockChain primitives store leftovers block = .ok 0)
    (stored : store.loadBlock block.header.prevHash = .ok (some prevBlock)) :
    prevBlock.header.time < block.header.time ∧ ¬ block.header.height < chainRecalcInterval := by
  have later : prevBlock.header.time < block.header.time := by
    by_contra notLater
    have earlier : block.header.time ≤ prevBlock.header.time := UInt32.not_lt.mp notLater
    rw [validateBlockChain, if_neg nonzero, stored, Run.ok_bind] at accepted
    simp only [earlier, if_true] at accepted
    exact absurd (Except.ok.inj accepted) (by decide)
  refine ⟨later, fun low => ?_⟩
  rw [validateBlockChain_of_stored nonzero stored later, if_pos low] at accepted
  exact absurd (Except.ok.inj accepted) (by decide)

end Verdict

/-! ## The shape of accepted chains -/

/-- `child` names the stored block `parent` as its predecessor and is accepted. -/
structure Extends (primitives : Primitives) (store : Store) (parent child : Block) : Prop where
  stored : store.loadBlock child.header.prevHash = .ok (some parent)
  nonzero : child.header.height ≠ 0
  accepted : ∃ leftovers, validateBlockChain primitives store leftovers child = .ok 0

section Shape

variable {primitives : Primitives} {store : Store}

theorem Extends.time_lt {parent child : Block} (step : Extends primitives store parent child) :
    parent.header.time < child.header.time := by
  obtain ⟨leftovers, accepted⟩ := step.accepted
  exact (tested_of_validateBlockChain step.nonzero accepted step.stored).1

theorem Extends.interval_le {parent child : Block} (step : Extends primitives store parent child) :
    144 ≤ child.header.height.toNat := by
  obtain ⟨leftovers, accepted⟩ := step.accepted
  have high := (tested_of_validateBlockChain step.nonzero accepted step.stored).2
  rw [UInt32.lt_iff_toNat_lt] at high
  exact Nat.not_lt.mp high

/-- Times that increase from block to block increase throughout. -/
theorem pairwise_time_lt {blocks : List Block}
    (steps : blocks.IsChain fun earlier later => earlier.header.time < later.header.time) :
    blocks.Pairwise fun earlier later => earlier.header.time < later.header.time := by
  have transitive : IsTrans Block fun earlier later => earlier.header.time < later.header.time :=
    ⟨fun _ _ _ first second => UInt32.lt_trans first second⟩
  exact List.isChain_iff_pairwise.mp steps

/-- The heights of a chain are its positions. -/
def HeightsCount (blocks : List Block) : Prop :=
  ∀ (i : Nat) (block : Block), blocks[i]? = some block → block.header.height.toNat = i

/-- A chain that was accepted beyond its first block does not count its heights. -/
theorem not_heightsCount_of_cons {genesis block : Block} {rest : List Block}
    (chain : (genesis :: block :: rest).IsChain (Extends primitives store)) :
    ¬ HeightsCount (genesis :: block :: rest) := by
  intro heights
  have first := heights 1 block rfl
  have step := (List.isChain_cons_cons.mp chain).1
  have high := step.interval_le
  omega

end Shape

/-- In every accepted chain the times increase; the heights are the positions only if nothing was
accepted on top of the first block. -/
theorem chain_shape_iff (primitives : Primitives) (store : Store) (genesis : Block)
    (rest : List Block) (start : genesis.header.height = 0)
    (chain : (genesis :: rest).IsChain (Extends primitives store)) :
    ((genesis :: rest).Pairwise fun earlier later => earlier.header.time < later.header.time) ∧
      (HeightsCount (genesis :: rest) ↔ rest = []) := by
  refine ⟨pairwise_time_lt (chain.imp fun _ _ step => step.time_lt), ?_⟩
  cases rest with
  | nil =>
      refine iff_of_true (fun i block inside => ?_) rfl
      cases i with
      | zero =>
          obtain rfl := Option.some.inj inside
          rw [start]
          rfl
      | succ i => simp at inside
  | cons block rest => exact iff_of_false (not_heightsCount_of_cons chain) (by simp)

/-- A first block without transactions. -/
def rootBlock : RawBlock where
  header :=
    { version := 2, time := 0, height := 0, prevHash := List.Vector.replicate 32 0
      merkleRoot := List.Vector.replicate 32 0, target := { mantissa := 0, exponent := 1 }
      nonce := 0, txCount := 0 }
  txs := []
  trailing := []
  count := rfl
  counted := by simp

@[irreducible]
def rootHash : Digest := sha256 rootBlock.header.bytes

/-- A data directory that holds the first block under its hash. -/
def rootDisk : Disk :=
  { Disk.empty with
    blocks := fun name => if name = blockFileName rootHash then some rootBlock.bytes else none }

def rootStore : Store := rootDisk.store (fun _ _ => none) fun _ => rootHash

def zeroChainLeftovers : ChainLeftovers where
  hashBuffer1 := List.Vector.replicate 32 0
  hashBuffer2 := List.Vector.replicate 32 0
  headerA := rootBlock.header

/-- A block that claims a height on top of the first one. -/
def childBlock (height : UInt32) : Block where
  header := { rootBlock.header with time := 1, height, prevHash := rootHash }
  txs := []

theorem rootStore_loadBlock :
    rootStore.loadBlock rootHash = .ok (some { header := rootBlock.header, txs := [] }) := by
  have raw : blockFile rootDisk rootHash = some rootBlock.bytes := by
    simp [blockFile, rootDisk]
  change mIoLoadBlock rootDisk rootHash = _
  rw [mIoLoadBlock_of_some raw (by decide), mBlockDeserialize_bytes rootBlock (by decide)]
  rfl

/-- A block of height 145 is accepted on top of a block of height 0. -/
theorem extends_childBlock : Extends permissive rootStore
    { header := rootBlock.header, txs := [] } (childBlock 145) where
  stored := rootStore_loadBlock
  nonzero := by decide
  accepted := by
    refine ⟨zeroChainLeftovers, ?_⟩
    rw [validateBlockChain_of_stored (by decide) rootStore_loadBlock (by decide),
      if_neg (by decide)]
    rfl

theorem isChain_childBlock : [{ header := rootBlock.header, txs := [] }, childBlock 145].IsChain
    (Extends permissive rootStore) :=
  List.isChain_cons_cons.mpr ⟨extends_childBlock, List.IsChain.singleton _⟩

theorem chain_shape_childBlock :
    rootBlock.header.height = 0 ∧
      [{ header := rootBlock.header, txs := [] }, childBlock 145].Pairwise
        fun earlier later => earlier.header.time < later.header.time :=
  ⟨rfl, (chain_shape_iff permissive rootStore _ _ rfl isChain_childBlock).1⟩

theorem chain_shape_childBlock_fails :
    rootBlock.header.height = 0 ∧
      [{ header := rootBlock.header, txs := [] }, childBlock 145].IsChain
        (Extends permissive rootStore) ∧
      ¬ HeightsCount [{ header := rootBlock.header, txs := [] }, childBlock 145] :=
  ⟨rfl, isChain_childBlock,
    not_heightsCount_of_cons isChain_childBlock⟩

/-! ## Miner and validator -/

/-- The same block with another target. -/
def Block.withTarget (block : Block) (target : Target) : Block :=
  { block with header := { block.header with target } }

/-- `block` is on top of `tip`, with the target the miner assigns. -/
structure MinedOn (store : Store) (headerA : BlockHeader) (nextTarget : Target)
    (tip block : Block) : Prop where
  stored : store.loadBlock block.header.prevHash = .ok (some tip)
  height : block.header.height = tip.header.height + 1
  later : tip.header.time < block.header.time
  assigned : chainComputeNextTarget store headerA tip.header nextTarget = .ok block.header.target

/-- A block completed from what `new_workblock` prepares on a head is mined on the head's block. -/
theorem minedOn_of_newWorkblockHeader {store : Store} {highestHead : Head} {tip block : Block}
    {highestHeader headerA header work : BlockHeader} {nextTarget : Target}
    (stored : store.loadBlock highestHead.hash = .ok (some tip))
    (loaded : store.loadBlockHeader highestHead.hash = .ok (some tip.header))
    (height_eq : highestHead.height = tip.header.height)
    (prepared :
      newWorkblockHeader store highestHead highestHeader headerA header nextTarget = .ok work)
    (prevHash_eq : block.header.prevHash = work.prevHash)
    (block_height : block.header.height = work.height)
    (target_eq : block.header.target = work.target)
    (later : tip.header.time < block.header.time) :
    MinedOn store headerA nextTarget tip block := by
  rw [newWorkblockHeader, loaded, Run.ok_bind] at prepared
  simp only [Option.getD_some, Run.bind_eq_ok, Run.pure_eq_ok, Except.ok.injEq] at prepared
  obtain ⟨target, assigned, rfl⟩ := prepared
  exact ⟨prevHash_eq ▸ stored, height_eq ▸ block_height, later, target_eq ▸ assigned⟩

/-- The validator never objects to the target of `block`, and always to any other in its place. -/
def TargetAgreed (primitives : Primitives) (store : Store) (leftovers : ChainLeftovers)
    (block : Block) : Prop :=
  validateBlockChain primitives store leftovers block ≠ .ok errBlockBadTarget ∧
    ∀ other, other ≠ block.header.target →
      validateBlockChain primitives store leftovers (block.withTarget other) = .ok errBlockBadTarget

/-- A target whose byte lies in front of the buffer is not answered with a code. -/
theorem targetVerdict_ne_ok {store : Store} {leftovers : ChainLeftovers} {block : Block}
    (outside : block.header.target.exponent = 0) (code : UInt8) :
    targetVerdict store leftovers block ≠ .ok code := by
  intro returned
  simp only [targetVerdict, Run.bind_eq_ok] at returned
  obtain ⟨next, _, expanded, written, _⟩ := returned
  have width : leftovers.hashBuffer2.toList.length = 32 := List.Vector.toList_length _
  rw [targetToBtarget, if_neg (by omega), outside] at written
  contradiction

theorem validateBlockChain_ne_badTarget {primitives : Primitives} {store : Store}
    {leftovers : ChainLeftovers} (block : Block) (zero : block.header.height = 0) :
    validateBlockChain primitives store leftovers block ≠ .ok errBlockBadTarget := by
  rw [validateBlockChain, if_pos zero]
  split
  · intro code
    exact absurd (Except.ok.inj code) (by decide)
  · intro code
    exact absurd (Except.ok.inj code) (by decide)

/-- Validator and miner agree at no height.  Below the interval every target is rejected, the
assigned one included; a height that wrapped to zero is not tested for its target at all; and from
the interval on a target with exponent 0 is not answered with a code. -/
theorem not_targetAgreed_of_minedOn (primitives : Primitives) (store : Store)
    (leftovers : ChainLeftovers) (headerA : BlockHeader) (nextTarget : Target) (tip block : Block)
    (mined : MinedOn store headerA nextTarget tip block) :
    ¬ TargetAgreed primitives store leftovers block := by
  rintro ⟨kept, rejected⟩
  obtain ⟨other, different, outside⟩ :
      ∃ other, other ≠ block.header.target ∧ other.exponent = 0 := by
    refine ⟨{ mantissa := block.header.target.mantissa + 1, exponent := 0 }, fun same => ?_, rfl⟩
    have mantissa := congrArg Target.mantissa same
    simp at mantissa
  have refused := rejected other different
  by_cases zero : block.header.height = 0
  · exact validateBlockChain_ne_badTarget (block.withTarget other) zero refused
  · by_cases low : block.header.height < chainRecalcInterval
    · rw [validateBlockChain_of_stored zero mined.stored mined.later, if_pos low] at kept
      exact kept rfl
    · have notLow : ¬ (block.withTarget other).header.height < chainRecalcInterval := low
      have nonzero : (block.withTarget other).header.height ≠ 0 := zero
      rw [validateBlockChain_of_stored nonzero mined.stored mined.later, if_neg notLow] at refused
      exact targetVerdict_ne_ok outside _ refused

/-- The first block of a chain is already rejected. -/
theorem minedOn_childBlock : MinedOn rootStore rootBlock.header { mantissa := 0, exponent := 0 }
    { header := rootBlock.header, txs := [] } (childBlock 1) where
  stored := rootStore_loadBlock
  height := by decide
  later := by decide
  assigned := by
    rw [chainComputeNextTarget, if_pos (by decide)]
    rfl

theorem not_targetAgreed_childBlock :
    ¬ TargetAgreed permissive rootStore zeroChainLeftovers (childBlock 1) :=
  not_targetAgreed_of_minedOn permissive rootStore zeroChainLeftovers _ _ _ _ minedOn_childBlock

theorem assigned_target_rejected :
    (MinedOn rootStore rootBlock.header { mantissa := 0, exponent := 0 }
      { header := rootBlock.header, txs := [] } (childBlock 1)) ∧
    validateBlockChain permissive rootStore zeroChainLeftovers (childBlock 1) =
      .ok errBlockBadTarget := by
  refine ⟨minedOn_childBlock, ?_⟩
  rw [validateBlockChain_of_stored (by decide) rootStore_loadBlock (by decide), if_pos (by decide)]

end Freecoin
