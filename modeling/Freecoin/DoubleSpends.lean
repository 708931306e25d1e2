import Freecoin.Acceptance
import Freecoin.ChainRules
import Freecoin.MerkleRoots
import Freecoin.StoredBlocks

/-!
# Double spends

The scans that look for double spends are in `validate_tx_chain`, and neither block validator calls
it.  So acceptance says nothing about references: whatever the blocks of an accepted chain look
like, as soon as there are two inputs in them, a chain that looks the same and spends one output
with all of its inputs is accepted as well.

What a chain cannot look like is due to the memory of the validators.  A Merkle root is computed of
some transactions only, and the predecessor of a block has to fit the buffer it is loaded into.  A
block of height 0 is accepted without its predecessor when its digest is 0, which one block of a
chain can be.
-/

namespace Freecoin

open Foundation

/-! ## Accepted chains -/

/-- A stored chain on top of a block of height 0, with every block accepted. -/
structure AcceptedChain where
  primitives : Primitives
  disk : Disk
  loadNthTxOutput : Digest → UInt16 → Option TxOutput
  blockAtHeight : UInt64 → Digest
  genesis : Block
  blocks : List Block
  genesis_height : genesis.header.height = 0
  genesis_txs : genesis.txs = []
  counted : ∀ block ∈ genesis :: blocks, block.Counted
  /-- The digest tells the headers of the chain apart. -/
  injective : ∀ left ∈ genesis :: blocks, ∀ right ∈ genesis :: blocks,
    blockComputeHash primitives.sha256 left = blockComputeHash primitives.sha256 right →
      left.header = right.header
  linked : (genesis :: blocks).IsChain fun parent child =>
    child.header.prevHash = blockComputeHash primitives.sha256 parent
  stored : ∀ block ∈ genesis :: blocks,
    blockFile disk (blockComputeHash primitives.sha256 block) = some block.bytes
  pseudo : ∀ block ∈ blocks, ∃ leftovers, validateBlockPseudo primitives leftovers block = .ok 0
  chain : ∀ block ∈ blocks, ∃ leftovers,
    validateBlockChain primitives (disk.store loadNthTxOutput blockAtHeight) leftovers block = .ok 0

namespace AcceptedChain

/-- All inputs of a chain. -/
def inputs (chain : AcceptedChain) : List TxInput := chain.blocks.flatMap Block.inputs

/-- How many inputs the transactions of each block have. -/
def layout (chain : AcceptedChain) : List (List Nat) := chain.blocks.map Block.layout

/-- No two inputs consume the same output. -/
def NoDoubleSpend (chain : AcceptedChain) : Prop :=
  chain.inputs.Pairwise fun left right => ¬ left.SameReference right

theorem length_inputs (chain : AcceptedChain) : chain.inputs.length = chain.layout.flatten.sum := by
  rw [inputs, List.length_flatMap, layout, List.sum_flatten, List.map_map]
  congr 1
  exact List.map_congr_left fun block _ => block.length_inputs

end AcceptedChain

/-! ## Blocks that are never accepted -/

/-- The layout of a block that `compute_merkle_root` can return for. -/
structure Mergeable (counts : List Nat) : Prop where
  nonempty : counts ≠ []
  short : counts.length < 2 ^ 31
  few : ∀ count ∈ counts, count ≤ 3

/-- The layout of a block that can be loaded: without any output it fits the buffer. -/
def Loadable (counts : List Nat) : Prop :=
  sizeBlockHeader + (counts.map fun count => sizeTxHeader + sizeTxInput * count).sum ≤ maxBlockSize

instance (counts : List Nat) : Decidable (Loadable counts) := Nat.decLe _ _

/-- The layouts of the accepted chains in which an output is spent twice. -/
structure Respendable (layout : List (List Nat)) : Prop where
  several : 2 ≤ layout.flatten.sum
  mergeable : ∀ counts ∈ layout, Mergeable counts
  loadable : layout.dropLast.Pairwise fun earlier later => Loadable earlier ∨ Loadable later

section Merkle

variable {sha256 : List UInt8 → Digest} {block : Block} (counted : block.Counted)

include counted

/-- `compute_merkle_root` returns only for a mergeable layout. -/
theorem mergeable_of_computeMerkleRoot {txBuffer : Nat → UInt8} {root : Digest}
    (ran : computeMerkleRoot sha256 block.txs block.header.txCount txBuffer = .ok root) :
    Mergeable block.layout := by
  obtain ⟨some_tx, small, fits⟩ :=
    (exists_computeMerkleRoot_iff txBuffer counted.txs counted.tx).mp ⟨root, ran⟩
  have length_eq : block.layout.length = block.header.txCount.toNat := by
    rw [Block.layout, List.length_map, counted.txs]
  refine ⟨List.ne_nil_of_length_pos (by omega), by omega, fun count member => ?_⟩
  obtain ⟨tx, txMember, rfl⟩ := List.mem_map.mp member
  rw [← (counted.tx tx txMember).ins]
  exact (fits tx txMember).1

/-- It does return for a mergeable layout when there are no outputs. -/
theorem exists_computeMerkleRoot (sha256 : List UInt8 → Digest) (mergeable : Mergeable block.layout)
    (outless : ∀ tx ∈ block.txs, tx.outs = []) (txBuffer : Nat → UInt8) :
    ∃ root, computeMerkleRoot sha256 block.txs block.header.txCount txBuffer = .ok root := by
  have length_eq : block.layout.length = block.header.txCount.toNat := by
    rw [Block.layout, List.length_map, counted.txs]
  have some_tx := List.length_pos_of_ne_nil mergeable.nonempty
  have short := mergeable.short
  refine (exists_computeMerkleRoot_iff txBuffer counted.txs counted.tx).mpr
    ⟨by omega, by omega, fun tx member => ?_⟩
  have few := mergeable.few _ (List.mem_map_of_mem member)
  have txCounted := counted.tx tx member
  refine ⟨txCounted.ins ▸ few, ?_⟩
  rw [txCounted.outs, outless tx member]
  exact Nat.zero_le _

end Merkle

/-- The outputs of a block only add to its size. -/
theorem loadable_of_length_bytes {block : Block} (fits : block.bytes.length ≤ maxBlockSize) :
    Loadable block.layout := by
  refine le_trans (Nat.add_le_add_left ?_ _) (block.length_bytes ▸ fits)
  rw [Block.layout, List.map_map]
  refine List.sum_le_sum fun tx _ => ?_
  rw [Function.comp_apply, Tx.length_bytes, sizeTxHeader, sizeTxInput]
  omega

namespace AcceptedChain

/-- Every block of an accepted chain is mergeable. -/
theorem mergeable (chain : AcceptedChain) : ∀ counts ∈ chain.layout, Mergeable counts := by
  intro counts member
  obtain ⟨block, blockMember, rfl⟩ := List.mem_map.mp member
  obtain ⟨leftovers, accepted⟩ := chain.pseudo block blockMember
  have counted := chain.counted block (List.mem_cons_of_mem _ blockMember)
  simp only [validateBlockPseudo, Run.bind_eq_ok] at accepted
  obtain ⟨_, _, order, _, verdict⟩ := accepted
  split at verdict
  · exact absurd (Except.ok.inj verdict) (by decide)
  · split at verdict
    · exact absurd (Except.ok.inj verdict) (by decide)
    · obtain ⟨root, ran, _⟩ := Run.bind_eq_ok.mp verdict
      exact mergeable_of_computeMerkleRoot counted ran

section Digests

variable (chain : AcceptedChain)

/-- No header occurs twice: two that are the same have the same predecessors, down to the first
block, which is the only one without transactions. -/
theorem header_ne {i distance : Nat} (apart : 0 < distance)
    (inside : i + distance < (chain.genesis :: chain.blocks).length) :
    (chain.genesis :: chain.blocks)[i].header ≠
      (chain.genesis :: chain.blocks)[i + distance].header := by
  induction i with
  | zero =>
      intro same
      obtain ⟨j, rfl⟩ := Nat.exists_eq_add_of_lt apart
      simp only [Nat.zero_add, List.getElem_cons_zero, List.getElem_cons_succ] at same inside
      have within : j < chain.blocks.length := Nat.lt_of_succ_lt_succ inside
      have member := List.getElem_mem within
      have count := (chain.counted _ (List.mem_cons_of_mem _ member)).txs
      rw [← same, (chain.counted _ List.mem_cons_self).txs, chain.genesis_txs] at count
      refine (chain.mergeable _ (List.mem_map_of_mem member)).nonempty ?_
      rw [Block.layout, List.length_eq_zero_iff.mp count.symm]
      rfl
  | succ i ih =>
      intro same
      have next : i + 1 + distance = i + distance + 1 := Nat.add_right_comm i 1 distance
      refine ih (by omega) ?_
      refine chain.injective _ (List.getElem_mem _) _ (List.getElem_mem _) ?_
      have here := List.isChain_iff_getElem.mp chain.linked i (by omega)
      have there := List.isChain_iff_getElem.mp chain.linked (i + distance) (by omega)
      rw [← here, ← there]
      simp only [← next]
      exact congrArg BlockHeader.prevHash same

/-- A block on top of one that does not fit the buffer is accepted for its digest alone. -/
theorem hash_of_not_loadable {i : Nat}
    (inside : i + 1 < (chain.genesis :: chain.blocks).length)
    (large : ¬ Loadable (chain.genesis :: chain.blocks)[i].layout) :
    blockComputeHash chain.primitives.sha256 (chain.genesis :: chain.blocks)[i + 1] =
      oneTrueRoot := by
  have linked := List.isChain_iff_getElem.mp chain.linked i inside
  have stored := chain.stored _ (List.getElem_mem (Nat.lt_of_succ_lt inside))
  have counted := chain.counted _ (List.getElem_mem (Nat.lt_of_succ_lt inside))
  obtain ⟨leftovers, accepted⟩ := chain.chain (chain.genesis :: chain.blocks)[i + 1]
    (List.getElem_mem (Nat.lt_of_succ_lt_succ inside))
  rw [validateBlockChain] at accepted
  split at accepted
  · split at accepted
    · exact absurd (Except.ok.inj accepted) (by decide)
    · rename_i root
      exact not_not.mp root
  · obtain ⟨result, load, _⟩ := Run.bind_eq_ok.mp accepted
    rw [linked] at load
    have fits := ((mIoLoadBlock_eq_ok counted stored).mp load).1
    exact absurd (loadable_of_length_bytes fits) large

/-- So of two blocks with blocks on top of them, one fits the buffer. -/
theorem loadable : chain.layout.dropLast.Pairwise fun earlier later =>
    Loadable earlier ∨ Loadable later := by
  have layout_length : chain.layout.length = chain.blocks.length := List.length_map _
  rw [List.pairwise_iff_getElem]
  intro i j iInside jInside before
  rw [List.length_dropLast] at iInside jInside
  simp only [List.getElem_dropLast, layout, List.getElem_map]
  by_contra large
  rw [not_or] at large
  have total : (chain.genesis :: chain.blocks).length = chain.blocks.length + 1 := rfl
  obtain ⟨distance, rfl⟩ := Nat.exists_eq_add_of_lt before
  have first := chain.hash_of_not_loadable (i := i + 1) (by omega) large.1
  have second := chain.hash_of_not_loadable (i := i + distance + 1 + 1) (by omega) large.2
  have same := chain.injective _ (List.getElem_mem _) _ (List.getElem_mem _)
    (first.trans second.symm)
  refine chain.header_ne (i := i + 1 + 1) (Nat.succ_pos distance) (by omega) ?_
  rw [same]
  congr 2
  omega

end Digests

end AcceptedChain


end Freecoin
