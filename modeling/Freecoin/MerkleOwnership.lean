import Freecoin.MerkleBounds

/-!
# Who owns the cells of the Merkle reduction

`compute_merkle_root` allocates a cell for every leaf and one to compute into, and every pair it
combines swaps the latter with a cell of the tree.  The pointers are permuted by every swap, so a
digest is never computed into a cell it is computed from, and the cells that are freed at the end
are those that were allocated.  The run gets that far when the leaf loop does.
-/

namespace Freecoin

open Foundation

/-! ## Swaps -/

/-- The reduction of the first `leafCount` digests behind a tree computes a digest from slots `i`
and `j` and swaps the cell it is in with slot `k`. -/
inductive Swaps (sha256 : List UInt8 → Digest) :
    (leafCount : Nat) → MerkleCells → (i j k : Nat) → (before after : MerkleCells) → Prop where
  | pair {leafCount k : Nat} {state before after : MerkleCells} : 1 < leafCount →
      k < leafCount / 2 → merklePairs sha256 0 k 0 state = .ok before →
      merkleCombine sha256 (2 * k) (2 * k + 1) k before = .ok after →
        Swaps sha256 leafCount state (2 * k) (2 * k + 1) k before after
  | remainder {leafCount : Nat} {state before after : MerkleCells} : 1 < leafCount →
      leafCount % 2 ≠ 0 → merklePairs sha256 0 (leafCount / 2) 0 state = .ok before →
      merkleCombine sha256 (leafCount - 1) (leafCount - 1) (leafCount / 2) before = .ok after →
        Swaps sha256 leafCount state (leafCount - 1) (leafCount - 1) (leafCount / 2) before after
  | above {leafCount next i j k : Nat} {state middle before after : MerkleCells} :
      1 < leafCount → merkleLevel sha256 leafCount state = .ok (next, middle) →
      Swaps sha256 next middle i j k before after → Swaps sha256 leafCount state i j k before after

namespace MerkleCells

/-- The pointers of a state: the spare one and the tree. -/
def owned (state : MerkleCells) : List Nat := state.buffer :: state.treeHashes

end MerkleCells

section Owned

variable {sha256 : List UInt8 → Digest}

/-- Combining swaps the spare pointer with one of the tree. -/
theorem owned_perm_of_merkleCombine {state after : MerkleCells} {i j k : Nat}
    (combined : merkleCombine sha256 i j k state = .ok after) :
    after.owned.Perm state.owned := by
  simp only [merkleCombine, Run.bind_eq_ok, Run.pure_eq_ok, Except.ok.injEq] at combined
  obtain ⟨left, _, right, _, temp, read, treeHashes, written, rfl⟩ := combined
  obtain ⟨inside, temp_eq⟩ := List.getElem?_eq_some_iff.mp (fetch_eq_ok.mp read)
  obtain ⟨_, rfl⟩ := assign_eq_ok.mp written
  rw [MerkleCells.owned, ← temp_eq]
  exact perm_swap state.buffer inside

theorem owned_perm_of_merklePairs {state after : MerkleCells} {k remaining i : Nat}
    (ran : merklePairs sha256 k remaining i state = .ok after) :
    after.owned.Perm state.owned := by
  induction remaining generalizing k i state with
  | zero =>
      obtain rfl := Except.ok.inj ran
      exact List.Perm.refl _
  | succ remaining ih =>
      simp only [merklePairs, Run.bind_eq_ok] at ran
      obtain ⟨next, combined, i, _, rest⟩ := ran
      exact (ih rest).trans (owned_perm_of_merkleCombine combined)

theorem owned_perm_of_merkleLevel {state after : MerkleCells} {leafCount next : Nat}
    (ran : merkleLevel sha256 leafCount state = .ok (next, after)) :
    after.owned.Perm state.owned := by
  simp only [merkleLevel, Run.bind_eq_ok] at ran
  obtain ⟨paired, pairs, rest⟩ := ran
  have pairsPerm := owned_perm_of_merklePairs pairs
  split at rest
  · obtain ⟨combinedState, combined, returned⟩ := Run.bind_eq_ok.mp rest
    obtain ⟨_, rfl⟩ := Prod.mk.inj (Except.ok.inj returned)
    exact (owned_perm_of_merkleCombine combined).trans pairsPerm
  · obtain ⟨_, rfl⟩ := Prod.mk.inj (Except.ok.inj rest)
    exact pairsPerm

theorem owned_perm_of_merkleLevels {state after : MerkleCells} {fuel leafCount : Nat}
    (ran : merkleLevels sha256 fuel leafCount state = .ok after) :
    after.owned.Perm state.owned := by
  induction fuel generalizing leafCount state with
  | zero =>
      rw [merkleLevels] at ran
      split at ran
      · obtain rfl := Except.ok.inj ran
        exact List.Perm.refl _
      · cases ran
  | succ fuel ih =>
      rw [merkleLevels] at ran
      split at ran
      · obtain rfl := Except.ok.inj ran
        exact List.Perm.refl _
      · obtain ⟨⟨next, middle⟩, level, rest⟩ := Run.bind_eq_ok.mp ran
        exact (ih rest).trans (owned_perm_of_merkleLevel level)

namespace Swaps

variable {leafCount i j k : Nat} {state before after : MerkleCells}

/-- Every swap of a reduction keeps the pointers it started with. -/
theorem owned_perm (swap : Swaps sha256 leafCount state i j k before after) :
    before.owned.Perm state.owned ∧ after.owned.Perm state.owned := by
  induction swap with
  | pair _ _ pairs combined =>
      have kept := owned_perm_of_merklePairs pairs
      exact ⟨kept, (owned_perm_of_merkleCombine combined).trans kept⟩
  | remainder _ _ pairs combined =>
      have kept := owned_perm_of_merklePairs pairs
      exact ⟨kept, (owned_perm_of_merkleCombine combined).trans kept⟩
  | above _ level _ ih =>
      have kept := owned_perm_of_merkleLevel level
      exact ⟨ih.1.trans kept, ih.2.trans kept⟩

/-- The digest is computed into a cell that no slot points to. -/
theorem buffer_notMem (swap : Swaps sha256 leafCount state i j k before after)
    (distinct : state.Distinct) : before.buffer ∉ before.treeHashes :=
  (List.nodup_cons.mp (swap.owned_perm.1.nodup_iff.mpr distinct)).1

end Swaps

end Owned

/-! ## The allocated blocks -/

/-- The cells: `buffer` was allocated first, the leaves from the third block on. -/
def merkleCells (malloc : Nat → Nat) (txCount : Nat) : List Nat :=
  (0 :: List.range' 2 txCount).map malloc

/-- All blocks `compute_merkle_root` allocates. -/
def merkleBlocks (malloc : Nat → Nat) (txCount : Nat) : List Nat :=
  (List.range (txCount + 3)).map malloc

/-- Whatever the memory held, the swaps of the reduction only permute the cells that were allocated
for it, each computes its digest into a cell it does not read, and the run gets to its end, where
what is freed is what was allocated, each block once. -/
structure KeepsCells (sha256 : List UInt8 → Digest) (malloc : Nat → Nat) (cells : Nat → Digest)
    (txs : List Tx) (txCount : UInt32) (txBuffer : Nat → UInt8) : Prop where
  swaps : ∀ start, merkleStart sha256 malloc cells txs txCount txBuffer = .ok start →
    ∀ (i j k : Nat) (before after : MerkleCells),
      Swaps sha256 txCount.toNat start i j k before after →
        after.owned.Perm (merkleCells malloc txCount.toNat) ∧
        before.treeHashes[i]? ≠ some before.buffer ∧ before.treeHashes[j]? ≠ some before.buffer
  frees : ∃ root freed, computeMerkleRootIn sha256 malloc cells txs txCount txBuffer =
      .ok (root, freed) ∧ freed.Nodup ∧ freed.Perm (merkleBlocks malloc txCount.toNat)

section Blocks

variable {malloc : Nat → Nat}

theorem nodup_merkleBlocks (different : Function.Injective malloc) (txCount : Nat) :
    (merkleBlocks malloc txCount).Nodup :=
  List.nodup_range.map different

/-- The blocks are the work buffer, the hash context and the cells. -/
theorem merkleBlocks_perm (malloc : Nat → Nat) (txCount : Nat) :
    (malloc (txCount + 2) :: malloc 1 :: merkleCells malloc txCount).Perm
      (merkleBlocks malloc txCount) := by
  have numbers : List.range (txCount + 3) = 0 :: 1 :: (List.range' 2 txCount ++ [txCount + 2]) := by
    rw [List.range_eq_range', List.range'_succ, List.range'_succ, List.range'_1_concat,
      Nat.add_comm 2]
  rw [merkleBlocks, merkleCells, numbers, ← List.map_cons, ← List.map_cons]
  apply List.Perm.map
  calc
    ((txCount + 2) :: 1 :: 0 :: List.range' 2 txCount).Perm
        ((txCount + 2) :: 0 :: 1 :: List.range' 2 txCount) := (List.Perm.swap _ _ _).cons _
    _ |>.Perm (0 :: 1 :: (List.range' 2 txCount ++ [txCount + 2])) :=
      (List.perm_append_singleton _ _).symm

/-- Every reduction starts from the cells that were allocated. -/
theorem MerkleStarted.owned_eq {leaves : List Digest} {start : MerkleCells} {txCount : Nat}
    (started : MerkleStarted malloc txCount leaves start) :
    start.owned = merkleCells malloc txCount := by
  rw [MerkleCells.owned, started.buffer, started.treeHashes, merkleCells, List.map_cons]

end Blocks

section Keeps

variable {sha256 : List UInt8 → Digest} {malloc : Nat → Nat} {txs : List Tx} {txCount : UInt32}
  {txBuffer : Nat → UInt8}

theorem keepsCells_of_leaves (cells : Nat → Digest) (different : Function.Injective malloc)
    {leaves : List Digest} (nonempty : 1 ≤ txCount.toNat) (small : txCount.toNat < 2 ^ 31)
    (ran : merkleLeaves sha256 txs 0 txCount.toNat { size := maxTxSize, byte := txBuffer } =
      .ok leaves) : KeepsCells sha256 malloc cells txs txCount txBuffer := by
  obtain ⟨start, state, root, start_eq, started, levels, computed, _⟩ :=
    computeMerkleRootIn_eq cells different nonempty small ran
  constructor
  · intro other other_eq i j k before after swap
    obtain rfl := Except.ok.inj (start_eq.symm.trans other_eq)
    have apart := swap.buffer_notMem started.distinct
    refine ⟨started.owned_eq ▸ swap.owned_perm.2, ?_, ?_⟩
    · intro read
      exact apart (List.mem_of_getElem? read)
    · intro read
      exact apart (List.mem_of_getElem? read)
  · have kept : state.owned.Perm (merkleCells malloc txCount.toNat) :=
      started.owned_eq ▸ owned_perm_of_merkleLevels levels
    have blocks : (malloc (txCount.toNat + 2) :: state.buffer :: malloc 1 ::
        state.treeHashes).Perm (merkleBlocks malloc txCount.toNat) :=
      calc
        (malloc (txCount.toNat + 2) :: state.buffer :: malloc 1 :: state.treeHashes).Perm
            (malloc (txCount.toNat + 2) :: malloc 1 :: state.owned) :=
          (List.Perm.swap _ _ _).cons _
        _ |>.Perm (malloc (txCount.toNat + 2) :: malloc 1 :: merkleCells malloc txCount.toNat) :=
          (kept.cons _).cons _
        _ |>.Perm (merkleBlocks malloc txCount.toNat) := merkleBlocks_perm malloc txCount.toNat
    exact ⟨root, _, computed, blocks.nodup_iff.mpr (nodup_merkleBlocks different _), blocks⟩

end Keeps

/-- With an allocator whose blocks are different, the cells are kept for every number of leaves that
an `int` can count, as long as the records of every transaction fit the work buffer, and for no
other leaves. -/
theorem keepsCells_iff (sha256 : List UInt8 → Digest) (cells : Nat → Digest)
    (txBuffer : Nat → UInt8) {malloc : Nat → Nat} (different : Function.Injective malloc)
    {txs : List Tx} {txCount : UInt32} (nonempty : 1 ≤ txCount.toNat)
    (count : txCount.toNat = txs.length) (counted : ∀ tx ∈ txs, tx.Counted) :
    KeepsCells sha256 malloc cells txs txCount txBuffer ↔
      txCount.toNat < 2 ^ 31 ∧ ∀ tx ∈ txs, tx.FitsWorkBuffer := by
  constructor
  · intro keeps
    obtain ⟨root, freed, ran, _⟩ := keeps.frees
    exact ((exists_computeMerkleRootIn_iff cells txBuffer different count counted).mp
      ⟨_, ran⟩).2
  · rintro ⟨small, fits⟩
    obtain ⟨leaves, ran⟩ : ∃ leaves, merkleLeaves sha256 txs 0 txCount.toNat
        { size := maxTxSize, byte := txBuffer } = .ok leaves :=
      exists_merkleLeaves sha256 counted fits rfl (by omega) (by omega)
    exact keepsCells_of_leaves cells different nonempty small ran

/-- Three leaves: one swap for a pair, one for the leaf left over and one for the root. -/
theorem keepsCells_three :
    Function.Injective (id : Nat → Nat) ∧
      (∀ tx ∈ [zeroInputsTx 1, zeroInputsTx 3, zeroInputsTx 0], tx.Counted) ∧
      KeepsCells sha256 id (fun _ => zeroDigest) [zeroInputsTx 1, zeroInputsTx 3, zeroInputsTx 0] 3
        (fun _ => 0) := by
  have counted : ∀ tx ∈ [zeroInputsTx 1, zeroInputsTx 3, zeroInputsTx 0], tx.Counted := by
    simp [zeroInputsTx_counted]
  have fits : ∀ tx ∈ [zeroInputsTx 1, zeroInputsTx 3, zeroInputsTx 0], tx.FitsWorkBuffer := by
    decide
  exact ⟨Function.injective_id, counted,
    (keepsCells_iff sha256 _ _ Function.injective_id (by decide) rfl counted).mpr
      ⟨by decide, fits⟩⟩

/-- With 2^31 leaves the counter of the cells leaves its range before any swap, and the fourth input
of a single transaction is written behind the work buffer. -/
theorem not_keepsCells_int :
    (∀ tx ∈ List.replicate (2 ^ 31) (zeroInputsTx 0), tx.Counted) ∧
      ¬ KeepsCells sha256 id (fun _ => zeroDigest) (List.replicate (2 ^ 31) (zeroInputsTx 0))
        2147483648 (fun _ => 0) ∧
      (∀ tx ∈ [zeroInputsTx 4], tx.Counted) ∧
      ¬ KeepsCells sha256 id (fun _ => zeroDigest) [zeroInputsTx 4] 1 (fun _ => 0) := by
  have single : ∀ tx ∈ [zeroInputsTx 4], tx.Counted := by simp [zeroInputsTx_counted]
  have fourth : ¬ ∀ tx ∈ [zeroInputsTx 4], tx.FitsWorkBuffer := by decide
  refine ⟨fun tx member => ?_, fun keeps => ?_, single, fun keeps => ?_⟩
  · rw [List.eq_of_mem_replicate member]
    exact zeroInputsTx_counted 0
  · obtain ⟨root, freed, ran, _⟩ := keeps.frees
    exact absurd (small_of_computeMerkleRootIn ran) (by decide)
  · obtain ⟨root, freed, ran, _⟩ := keeps.frees
    exact fourth ((exists_computeMerkleRootIn_iff _ _ Function.injective_id rfl single).mp
      ⟨_, ran⟩).2.2

end Freecoin
