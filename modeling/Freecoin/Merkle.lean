import Freecoin.Foundation.PairTree
import Freecoin.Blocks

/-!
# The Merkle root

`compute_merkle_root` hashes every transaction through one work buffer, then reduces the digests
in place.  The reduction swaps pointers: each digest is computed into a spare cell, which then
takes the place of a cell of the tree.  As long as the tree and the spare cell are different
cells, the values behind the tree follow the pairwise reduction.  All loops but the one over the
levels count with an `int`, which bounds the number of leaves.
-/

namespace Freecoin

open Foundation

/-! ## The code -/

/-- A digest of zeros. -/
def zeroDigest : Digest := List.Vector.replicate 32 0

/-- The loop that allocates `tree_hashes`; the results of `malloc` are numbered. -/
def merkleAllocate (malloc : Nat → Nat) : (i remaining : Nat) → Run (List Nat)
  | _, 0 => .ok []
  | i, remaining + 1 => do
      let cell := malloc (i + 2)
      let i ← intAdd i 1
      let treeHashes ← merkleAllocate malloc i remaining
      return cell :: treeHashes

/-- The leaf loop: serialize a transaction into the work buffer and hash as many bytes of the
buffer as the transaction's size says. -/
def merkleLeaves (sha256 : List UInt8 → Digest) (txs : List Tx) :
    (i remaining : Nat) → (txBuffer : Buffer) → Run (List Digest)
  | _, 0, _ => .ok []
  | i, remaining + 1, txBuffer => do
      let tx ← fetch txs i
      let txBuffer ← txSerialize tx txBuffer 0
      let bytes ← txBuffer.read 0 (txComputeSize tx).toNat
      let i ← intAdd i 1
      let leaves ← merkleLeaves sha256 txs i remaining txBuffer
      return sha256 bytes :: leaves

/-- The digests of the leaf loop, each in the cell its pointer leads to. -/
def storeDigests : List Nat → List Digest → (Nat → Digest) → Nat → Digest
  | cell :: treeHashes, leaf :: leaves, cells =>
      storeDigests treeHashes leaves (Function.update cells cell leaf)
  | _, _, cells => cells

/-- The digest cells of the reduction: `treeHashes` and `buffer` point into `cells`. -/
structure MerkleCells where
  cells : Nat → Digest
  treeHashes : List Nat
  buffer : Nat

/-- Hash the digests behind `treeHashes[i]` and `treeHashes[j]` into the spare cell and swap it
with `treeHashes[k]`. -/
def merkleCombine (sha256 : List UInt8 → Digest) (i j k : Nat) (state : MerkleCells) :
    Run MerkleCells := do
  let left ← fetch state.treeHashes i
  let right ← fetch state.treeHashes j
  let digest := sha256 ((state.cells left).toList ++ (state.cells right).toList)
  let temp ← fetch state.treeHashes k
  let treeHashes ← assign state.treeHashes k state.buffer
  return { cells := Function.update state.cells state.buffer digest, treeHashes, buffer := temp }

/-- The pair loop of one level: `k` counts the slots written, `i` the slots read. -/
def merklePairs (sha256 : List UInt8 → Digest) :
    (k remaining i : Nat) → MerkleCells → Run MerkleCells
  | _, 0, _, state => .ok state
  | k, remaining + 1, i, state => do
      let state ← merkleCombine sha256 i (i + 1) k state
      let i ← intAdd i 2
      merklePairs sha256 (k + 1) remaining i state

/-- One level: the pairs, then the last digest with itself if one is left over.  Its slot is
computed from the unsigned `leaf_count`. -/
def merkleLevel (sha256 : List UInt8 → Digest) (leafCount : Nat) (state : MerkleCells) :
    Run (Nat × MerkleCells) := do
  let remainder := leafCount % 2
  let pairCount := (leafCount - remainder) / 2
  let state ← merklePairs sha256 0 pairCount 0 state
  if remainder ≠ 0 then do
    let state ← merkleCombine sha256 (leafCount - 1) (leafCount - 1) pairCount state
    return (pairCount + 1, state)
  else
    return (pairCount, state)

/-- The level loop.  The number of leaves is a sufficient budget. -/
def merkleLevels (sha256 : List UInt8 → Digest) :
    (fuel leafCount : Nat) → MerkleCells → Run MerkleCells
  | fuel, leafCount, state =>
      if leafCount ≤ 1 then .ok state
      else
        match fuel with
        | 0 => .error .outOfFuel
        | fuel + 1 => do
            let (leafCount, state) ← merkleLevel sha256 leafCount state
            merkleLevels sha256 fuel leafCount state

/-- The cells as allocated and filled by the leaf loop, with one spare cell behind them. -/
def MerkleCells.ofLeaves (leaves : List Digest) : MerkleCells where
  cells index := leaves.getD index zeroDigest
  treeHashes := List.range leaves.length
  buffer := leaves.length

/-- The reduction of the leaf digests; `tree_hashes[0]` does not exist when there are none. -/
def merkleReduce (sha256 : List UInt8 → Digest) (leaves : List Digest) : Run Digest := do
  let state ← merkleLevels sha256 leaves.length leaves.length (.ofLeaves leaves)
  let first ← fetch state.treeHashes 0
  return state.cells first

/-- The loop that frees `tree_hashes`. -/
def merkleFrees (treeHashes : List Nat) : (i remaining : Nat) → Run (List Nat)
  | _, 0 => .ok []
  | i, remaining + 1 => do
      let cell ← fetch treeHashes i
      let i ← intAdd i 1
      let freed ← merkleFrees treeHashes i remaining
      return cell :: freed

/-- The tree when the reduction starts, for cells and a work buffer with arbitrary content; `buffer`
was allocated first, the hash context second and the work buffer last. -/
def merkleStart (sha256 : List UInt8 → Digest) (malloc : Nat → Nat) (cells : Nat → Digest)
    (txs : List Tx) (txCount : UInt32) (txBuffer : Nat → UInt8) : Run MerkleCells := do
  let treeHashes ← merkleAllocate malloc 0 txCount.toNat
  let leaves ← merkleLeaves sha256 txs 0 txCount.toNat { size := maxTxSize, byte := txBuffer }
  return { cells := storeDigests treeHashes leaves cells, treeHashes, buffer := malloc 0 }

/-- `compute_merkle_root` with a given allocator: the root, and the blocks it frees in their order,
which are the work buffer, `buffer`, `ctx` and the cells behind `tree_hashes`. -/
def computeMerkleRootIn (sha256 : List UInt8 → Digest) (malloc : Nat → Nat) (cells : Nat → Digest)
    (txs : List Tx) (txCount : UInt32) (txBuffer : Nat → UInt8) : Run (Digest × List Nat) := do
  let start ← merkleStart sha256 malloc cells txs txCount txBuffer
  let state ← merkleLevels sha256 txCount.toNat txCount.toNat start
  let first ← fetch state.treeHashes 0
  let out := state.cells first
  let freed ← merkleFrees state.treeHashes 0 txCount.toNat
  return (out, malloc (txCount.toNat + 2) :: state.buffer :: malloc 1 :: freed)

/-- `compute_merkle_root`, for a work buffer with arbitrary content. -/
def computeMerkleRoot (sha256 : List UInt8 → Digest) (txs : List Tx) (txCount : UInt32)
    (txBuffer : Nat → UInt8) : Run Digest := do
  let (out, _) ← computeMerkleRootIn sha256 id (fun _ => zeroDigest) txs txCount txBuffer
  return out

/-! ## The values behind the tree -/

/-- The digest of two digests. -/
def merkleNode (sha256 : List UInt8 → Digest) (left right : Digest) : Digest :=
  sha256 (left.toList ++ right.toList)

namespace MerkleCells

/-- The digests behind `treeHashes`. -/
def values (state : MerkleCells) : List Digest := state.treeHashes.map state.cells

/-- All pointers, the spare one included, are different. -/
def Distinct (state : MerkleCells) : Prop := (state.buffer :: state.treeHashes).Nodup

@[simp] theorem length_values (state : MerkleCells) :
    state.values.length = state.treeHashes.length := by
  simp [values]

theorem values_ofLeaves (leaves : List Digest) : (ofLeaves leaves).values = leaves := by
  apply List.ext_getElem
  · simp [values, ofLeaves]
  · intro index _ inside
    simp [values, ofLeaves, inside]

theorem distinct_ofLeaves (leaves : List Digest) : (ofLeaves leaves).Distinct := by
  simp [Distinct, ofLeaves, List.nodup_range]

end MerkleCells

variable (sha256 : List UInt8 → Digest)

/-- Swapping a pointer with the spare one only permutes them. -/
theorem perm_swap {pointers : List Nat} (spare : Nat) {k : Nat} (inside : k < pointers.length) :
    (pointers[k] :: pointers.set k spare).Perm (spare :: pointers) :=
  calc
    (pointers[k] :: pointers.set k spare).Perm (pointers[k] :: spare :: pointers.eraseIdx k) :=
      (List.set_perm_cons_eraseIdx inside spare).cons _
    _ |>.Perm (spare :: pointers[k] :: pointers.eraseIdx k) := List.Perm.swap _ _ _
    _ |>.Perm (spare :: pointers) := (List.getElem_cons_eraseIdx_perm inside).cons _

/-- Combining writes one value of the tree and keeps the pointers different. -/
theorem merkleCombine_spec {state : MerkleCells} {i j k : Nat} (distinct : state.Distinct)
    (iInside : i < state.values.length) (jInside : j < state.values.length)
    (kInside : k < state.values.length) :
    ∃ after, merkleCombine sha256 i j k state = .ok after ∧ after.Distinct ∧
      after.values =
        state.values.set k (merkleNode sha256 state.values[i] state.values[j]) := by
  rw [MerkleCells.length_values] at iInside jInside kInside
  have fresh : state.buffer ∉ state.treeHashes := (List.nodup_cons.mp distinct).1
  let digest :=
    merkleNode sha256 (state.cells state.treeHashes[i]) (state.cells state.treeHashes[j])
  refine ⟨{ cells := Function.update state.cells state.buffer digest
            treeHashes := state.treeHashes.set k state.buffer
            buffer := state.treeHashes[k] }, ?_,
    (perm_swap state.buffer kInside).nodup_iff.mpr distinct, ?_⟩
  · simp only [merkleCombine, fetch_of_lt iInside, fetch_of_lt jInside, fetch_of_lt kInside,
      assign_of_lt kInside, Run.ok_bind, Run.pure_eq_ok]
    rfl
  · simp only [MerkleCells.values, List.map_set, Function.update_self, List.getElem_map]
    rw [List.map_congr_left fun pointer member =>
      Function.update_of_ne (ne_of_mem_of_not_mem member fresh) _ _]

/-- The step of the pair loop. -/
theorem merkleCombine_pair {state : MerkleCells} {k : Nat} (distinct : state.Distinct)
    (inside : 2 * (k + 1) ≤ state.values.length) :
    ∃ next, merkleCombine sha256 (2 * k) (2 * k + 1) k state = .ok next ∧ next.Distinct ∧
      next.values.length = state.values.length ∧ next.values =
        state.values.set k (merkleNode sha256 state.values[2 * k] state.values[2 * k + 1]) := by
  obtain ⟨next, combined, nextDistinct, nextValues⟩ :=
    merkleCombine_spec sha256 (i := 2 * k) (j := 2 * k + 1) (k := k) distinct
      (by omega) (by omega) (by omega)
  exact ⟨next, combined, nextDistinct, by rw [nextValues, List.length_set], nextValues⟩

/-- The pair loop from `k` combines the pairs from `k` on and leaves every other value alone. -/
theorem merklePairs_spec {state : MerkleCells} (remaining : Nat) {k : Nat}
    (distinct : state.Distinct) (inside : 2 * (k + remaining) ≤ state.values.length)
    (small : 2 * (k + remaining) < 2 ^ 31) :
    ∃ after, merklePairs sha256 k remaining (2 * k) state = .ok after ∧ after.Distinct ∧
      after.values.length = state.values.length ∧ ∀ index, after.values[index]? =
        if k ≤ index ∧ index < k + remaining then
          (PairTree.pairAt state.values index).map fun pair => merkleNode sha256 pair.1 pair.2
        else state.values[index]? := by
  induction remaining generalizing k state with
  | zero =>
      refine ⟨state, rfl, distinct, rfl, fun index => ?_⟩
      rw [if_neg (by omega)]
  | succ remaining ih =>
      obtain ⟨next, combined, nextDistinct, nextLength, nextValues⟩ :=
        merkleCombine_pair sha256 (k := k) distinct (by omega)
      obtain ⟨after, rest, afterDistinct, afterLength, afterValues⟩ :=
        ih (k := k + 1) nextDistinct (by omega) (by omega)
      have counted : intAdd (2 * k) 2 = .ok (2 * (k + 1)) := intAdd_of_lt (by omega)
      refine ⟨after, by rw [merklePairs, combined, Run.ok_bind, counted, Run.ok_bind, rest],
        afterDistinct, afterLength.trans nextLength, fun index => ?_⟩
      rw [afterValues index]
      rcases Nat.lt_trichotomy index k with before | rfl | behind
      · rw [if_neg (by omega), if_neg (by omega), nextValues,
          List.getElem?_set_ne (by omega)]
      · rw [if_neg (by omega), if_pos (by omega), nextValues,
          List.getElem?_set_self (by omega), PairTree.pairAt,
          List.getElem?_eq_getElem (by omega), List.getElem?_eq_getElem (by omega)]
        rfl
      · -- Positions `2 * index` and beyond lie behind the value that was just replaced.
        have samePair : PairTree.pairAt next.values index = PairTree.pairAt state.values index := by
          simp only [PairTree.pairAt, nextValues]
          rw [List.getElem?_set_ne (by omega), List.getElem?_set_ne (by omega)]
        have sameValue : next.values[index]? = state.values[index]? := by
          rw [nextValues, List.getElem?_set_ne (by omega)]
        rw [samePair, sameValue]
        by_cases covered : index < k + 1 + remaining
        · rw [if_pos (by omega), if_pos (by omega)]
        · rw [if_neg (by omega), if_neg (by omega)]

private theorem pairAt_take {xs : List Digest} {count k : Nat} (inside : 2 * k + 1 < count) :
    PairTree.pairAt (xs.take count) k = PairTree.pairAt xs k := by
  simp only [PairTree.pairAt]
  rw [List.getElem?_take_of_lt (by omega), List.getElem?_take_of_lt (by omega)]

/-- The last of an odd number of values is paired with itself. -/
theorem pairAt_take_last {values : List Digest} {leafCount index : Nat} (odd : leafCount % 2 = 1)
    (inside : leafCount ≤ values.length) (middle : index = leafCount / 2) :
    PairTree.pairAt (values.take leafCount) index =
      some (values[leafCount - 1], values[leafCount - 1]) := by
  have first : (values.take leafCount)[2 * index]? = some values[leafCount - 1] := by
    rw [List.getElem?_take_of_lt (by omega), show 2 * index = leafCount - 1 by omega,
      List.getElem?_eq_getElem]
  have second : (values.take leafCount)[2 * index + 1]? = none :=
    List.getElem?_take_eq_none (by omega)
  rw [PairTree.pairAt, first, second]
  rfl

theorem merkleLevel_eq {state paired : MerkleCells} {leafCount : Nat}
    (pairs : merklePairs sha256 0 (leafCount / 2) 0 state = .ok paired) :
    merkleLevel sha256 leafCount state =
      if leafCount % 2 ≠ 0 then do
        let state ← merkleCombine sha256 (leafCount - 1) (leafCount - 1) (leafCount / 2) paired
        return (leafCount / 2 + 1, state)
      else return (leafCount / 2, paired) := by
  have half : (leafCount - leafCount % 2) / 2 = leafCount / 2 := by omega
  rw [merkleLevel]
  simp only [half, pairs, Run.ok_bind]

/-- The pair loop of a level computes its pairs and leaves the digests behind them alone. -/
theorem merklePairs_level {state : MerkleCells} {leafCount : Nat} (distinct : state.Distinct)
    (inside : leafCount ≤ state.values.length) (small : leafCount < 2 ^ 31) :
    ∃ paired, merklePairs sha256 0 (leafCount / 2) 0 state = .ok paired ∧ paired.Distinct ∧
      paired.values.length = state.values.length ∧
      (∀ index, index < leafCount / 2 → paired.values[index]? =
        (PairTree.level (merkleNode sha256) (state.values.take leafCount))[index]?) ∧
      ∀ index, leafCount / 2 ≤ index → paired.values[index]? = state.values[index]? := by
  obtain ⟨paired, pairs, pairedDistinct, pairedLength, pairedValues⟩ :=
    merklePairs_spec sha256 (leafCount / 2) (k := 0) distinct (by omega) (by omega)
  refine ⟨paired, pairs, pairedDistinct, pairedLength, ?_, ?_⟩
  · intro index covered
    rw [pairedValues, if_pos (by omega), PairTree.getElem?_level, pairAt_take (by omega)]
  · intro index behind
    rw [pairedValues, if_neg (by omega)]

/-- One level of the loop is one level of the reduction. -/
theorem merkleLevel_spec {state : MerkleCells} {leafCount : Nat} (distinct : state.Distinct)
    (long : 2 ≤ leafCount) (inside : leafCount ≤ state.values.length)
    (small : leafCount < 2 ^ 31) :
    ∃ after, merkleLevel sha256 leafCount state = .ok ((leafCount + 1) / 2, after) ∧
      after.Distinct ∧ after.values.length = state.values.length ∧
      after.values.take ((leafCount + 1) / 2) =
        PairTree.level (merkleNode sha256) (state.values.take leafCount) := by
  obtain ⟨paired, pairs, pairedDistinct, pairedLength, pairValue, untouched⟩ :=
    merklePairs_level sha256 distinct inside small
  have level_eq := merkleLevel_eq sha256 pairs
  have reduced : (PairTree.level (merkleNode sha256) (state.values.take leafCount)).length =
      (leafCount + 1) / 2 := by
    rw [PairTree.length_level, List.length_take, Nat.min_eq_left inside]
  obtain even | odd := Nat.mod_two_eq_zero_or_one leafCount
  · have count_eq : (leafCount + 1) / 2 = leafCount / 2 := by omega
    rw [count_eq] at reduced ⊢
    refine ⟨paired, by rw [level_eq, if_neg (by omega)]; rfl, pairedDistinct, pairedLength, ?_⟩
    apply List.ext_getElem?
    intro index
    by_cases covered : index < leafCount / 2
    · rw [List.getElem?_take_of_lt covered, pairValue index covered]
    · rw [List.getElem?_take_eq_none (by omega), List.getElem?_eq_none (by omega)]
  · have count_eq : (leafCount + 1) / 2 = leafCount / 2 + 1 := by omega
    rw [count_eq] at reduced ⊢
    obtain ⟨after, combined, afterDistinct, afterValues⟩ :=
      merkleCombine_spec sha256 (i := leafCount - 1) (j := leafCount - 1)
        (k := leafCount / 2) pairedDistinct (by omega) (by omega) (by omega)
    refine ⟨after, ?_, afterDistinct, by rw [afterValues, List.length_set, pairedLength], ?_⟩
    · rw [level_eq, if_pos (by omega), combined]
      rfl
    · -- The digest left over is still in its place, behind every pair that was combined.
      have last := untouched (leafCount - 1) (by omega)
      rw [List.getElem?_eq_getElem (by omega), List.getElem?_eq_getElem (by omega),
        Option.some.injEq] at last
      apply List.ext_getElem?
      intro index
      rcases Nat.lt_trichotomy index (leafCount / 2) with before | middle | behind
      · rw [List.getElem?_take_of_lt (by omega), afterValues, List.getElem?_set_ne (by omega),
          pairValue index before]
      · have lastPair := pairAt_take_last odd inside middle
        rw [List.getElem?_take_of_lt (by omega), afterValues, middle,
          List.getElem?_set_self (by omega), ← middle, PairTree.getElem?_level, lastPair, last]
        rfl
      · rw [List.getElem?_take_eq_none (by omega), List.getElem?_eq_none (by omega)]

private theorem root_take_one {node : Digest → Digest → Digest} {values : List Digest}
    (nonempty : 1 ≤ values.length) : PairTree.root node (values.take 1) = values[0]? := by
  cases values with
  | nil => simp at nonempty
  | cons value values => simp

/-- The level loop leaves the root of the reduction in `tree_hashes[0]`. -/
theorem merkleLevels_spec {state : MerkleCells} (fuel leafCount : Nat) (distinct : state.Distinct)
    (nonempty : 1 ≤ leafCount) (inside : leafCount ≤ state.values.length)
    (small : leafCount < 2 ^ 31) (enough : leafCount ≤ fuel + 1) :
    ∃ after, merkleLevels sha256 fuel leafCount state = .ok after ∧
      after.values.length = state.values.length ∧
      PairTree.root (merkleNode sha256) (state.values.take leafCount) = after.values[0]? := by
  induction fuel generalizing state leafCount with
  | zero =>
      obtain rfl : leafCount = 1 := by omega
      exact ⟨state, by simp [merkleLevels], rfl, root_take_one inside⟩
  | succ fuel ih =>
      by_cases long : 2 ≤ leafCount
      · obtain ⟨next, level, nextDistinct, nextLength, nextValues⟩ :=
          merkleLevel_spec sha256 distinct long inside small
        obtain ⟨after, rest, afterLength, root_eq⟩ :=
          ih ((leafCount + 1) / 2) nextDistinct (by omega) (by omega) (by omega) (by omega)
        refine ⟨after, ?_, afterLength.trans nextLength, ?_⟩
        · rw [merkleLevels, if_neg (by omega), level]
          exact rest
        · have several : 2 ≤ (state.values.take leafCount).length := by
            rw [List.length_take]
            omega
          rw [PairTree.root_level _ several, ← nextValues, root_eq]
      · obtain rfl : leafCount = 1 := by omega
        exact ⟨state, by simp [merkleLevels], rfl, root_take_one inside⟩

/-- From as many different cells as there are leaves, the level loop ends with the root behind
`tree_hashes[0]`. -/
theorem merkleLevels_root {start : MerkleCells} {leafCount : Nat} (distinct : start.Distinct)
    (length_eq : start.values.length = leafCount) (nonempty : 1 ≤ leafCount)
    (small : leafCount < 2 ^ 31) :
    ∃ after first, merkleLevels sha256 leafCount leafCount start = .ok after ∧
      after.treeHashes.length = leafCount ∧ fetch after.treeHashes 0 = .ok first ∧
      PairTree.root (merkleNode sha256) start.values = some (after.cells first) := by
  obtain ⟨after, levels, afterLength, root_eq⟩ :=
    merkleLevels_spec sha256 leafCount leafCount distinct nonempty (by omega) small (by omega)
  rw [← length_eq, List.take_length] at root_eq
  have count : after.treeHashes.length = leafCount := by
    rw [← MerkleCells.length_values, afterLength, length_eq]
  have first : 0 < after.treeHashes.length := by omega
  refine ⟨after, after.treeHashes[0], levels, count, fetch_of_lt first, ?_⟩
  rw [root_eq, MerkleCells.values, List.getElem?_map, List.getElem?_eq_getElem first]
  rfl

/-- The in-place reduction computes the root of the pairwise reduction. -/
theorem merkleReduce_eq {leaves : List Digest} (nonempty : leaves ≠ [])
    (small : leaves.length < 2 ^ 31) :
    ∃ root, merkleReduce sha256 leaves = .ok root ∧
      PairTree.root (merkleNode sha256) leaves = some root := by
  have values_eq := MerkleCells.values_ofLeaves leaves
  obtain ⟨after, first, levels, _, fetched, root_eq⟩ :=
    merkleLevels_root sha256 (MerkleCells.distinct_ofLeaves leaves) (by rw [values_eq])
      (List.length_pos_of_ne_nil nonempty) small
  rw [values_eq] at root_eq
  refine ⟨after.cells first, ?_, root_eq⟩
  rw [merkleReduce, levels, Run.ok_bind, fetched]
  rfl

/-! ## Beyond the range of the counters -/

/-- The pair loop that has to get past the range of its `int` does not. -/
theorem merklePairs_overflow {state : MerkleCells} {k remaining : Nat}
    (distinct : state.Distinct) (inside : 2 * (k + remaining) ≤ state.values.length)
    (start : 2 * k < 2 ^ 31) (beyond : 2 ^ 31 ≤ 2 * (k + remaining)) :
    merklePairs sha256 k remaining (2 * k) state = .error .intOverflow := by
  induction remaining generalizing k state with
  | zero => omega
  | succ remaining ih =>
      obtain ⟨next, combined, nextDistinct, nextLength, _⟩ :=
        merkleCombine_pair sha256 (k := k) distinct (by omega)
      rw [merklePairs, combined, Run.ok_bind]
      by_cases fits : 2 * k + 2 < 2 ^ 31
      · rw [intAdd_of_lt fits, Run.ok_bind]
        exact ih nextDistinct (by omega) (by omega) (by omega)
      · rw [intAdd, if_neg fits]
        rfl

theorem merkleReduce_overflow {leaves : List Digest} (beyond : 2 ^ 31 ≤ leaves.length) :
    merkleReduce sha256 leaves = .error .intOverflow := by
  have pairs : merklePairs sha256 0 ((leaves.length - leaves.length % 2) / 2) 0
      (.ofLeaves leaves) = .error .intOverflow :=
    merklePairs_overflow sha256 (MerkleCells.distinct_ofLeaves leaves)
      (by rw [MerkleCells.values_ofLeaves]; omega) (by omega) (by omega)
  have level : merkleLevel sha256 leaves.length (.ofLeaves leaves) = .error .intOverflow := by
    rw [merkleLevel, pairs]
    rfl
  obtain ⟨fuel, length_eq⟩ := Nat.exists_eq_succ_of_ne_zero (show leaves.length ≠ 0 by omega)
  have levels : merkleLevels sha256 leaves.length leaves.length (.ofLeaves leaves) =
      .error .intOverflow := by
    rw [length_eq] at level ⊢
    rw [merkleLevels, if_neg (by omega), level]
    rfl
  rw [merkleReduce, levels]
  rfl

theorem merkleReduce_nil : merkleReduce sha256 [] = .error .outOfBounds := rfl

/-- The reduction reads only slots that were filled, and stays within its types, exactly when there
is a slot and all of them can be counted with an `int`. -/
theorem exists_merkleReduce_iff (leaves : List Digest) :
    (∃ root, merkleReduce sha256 leaves = .ok root) ↔
      1 ≤ leaves.length ∧ leaves.length < 2 ^ 31 := by
  constructor
  · rintro ⟨root, reduced⟩
    constructor
    · by_contra missing
      have empty : leaves = [] := List.length_eq_zero_iff.mp (by omega)
      rw [empty, merkleReduce_nil] at reduced
      cases reduced
    · by_contra beyond
      rw [merkleReduce_overflow sha256 (by omega)] at reduced
      cases reduced
  · rintro ⟨nonempty, small⟩
    obtain ⟨root, reduced, _⟩ :=
      merkleReduce_eq sha256 (List.ne_nil_of_length_pos nonempty) small
    exact ⟨root, reduced⟩

end Freecoin
