import Freecoin.Merkle
import Freecoin.Serialization

/-!
# The Merkle root on the heap

`compute_merkle_root` from its first allocation to its last free.  The cells of the tree are
allocated and filled with the leaf digests before the reduction starts and are freed behind it.  The
whole function returns when there is a leaf, an `int` can count the leaves, and the records of every
transaction fit the work buffer; its root is then that of the reduction.
-/

namespace Freecoin

open Foundation

variable {sha256 : List UInt8 → Digest}

/-! ## Allocating, filling and freeing -/

section Blocks

variable {malloc : Nat → Nat}

theorem merkleAllocate_eq {i remaining : Nat} (small : i + remaining < 2 ^ 31) :
    merkleAllocate malloc i remaining = .ok ((List.range' (i + 2) remaining).map malloc) := by
  induction remaining generalizing i with
  | zero => rfl
  | succ remaining ih =>
      rw [merkleAllocate, intAdd_of_lt (by omega), Run.ok_bind, ih (by omega), Run.ok_bind,
        List.range'_succ, List.map_cons, Nat.add_right_comm]
      rfl

/-- Counting the cells takes the `int` past its range. -/
theorem merkleAllocate_overflow {i remaining : Nat} (start : i < 2 ^ 31)
    (beyond : 2 ^ 31 ≤ i + remaining) :
    merkleAllocate malloc i remaining = .error .intOverflow := by
  induction remaining generalizing i with
  | zero => omega
  | succ remaining ih =>
      rw [merkleAllocate]
      by_cases fits : i + 1 < 2 ^ 31
      · rw [intAdd_of_lt fits, Run.ok_bind, ih fits (by omega)]
        rfl
      · rw [intAdd, if_neg fits]
        rfl

theorem merkleFrees_eq {treeHashes : List Nat} {i remaining : Nat}
    (length_eq : i + remaining = treeHashes.length) (small : treeHashes.length < 2 ^ 31) :
    merkleFrees treeHashes i remaining = .ok (treeHashes.drop i) := by
  induction remaining generalizing i with
  | zero =>
      rw [merkleFrees, List.drop_of_length_le (by omega)]
  | succ remaining ih =>
      have inside : i < treeHashes.length := by omega
      rw [merkleFrees, fetch_of_lt inside, Run.ok_bind, intAdd_of_lt (by omega), Run.ok_bind,
        ih (by omega), Run.ok_bind, List.drop_eq_getElem_cons inside]
      rfl

theorem storeDigests_of_notMem {treeHashes : List Nat} {leaves : List Digest}
    {cells : Nat → Digest} {cell : Nat} (outside : cell ∉ treeHashes) :
    storeDigests treeHashes leaves cells cell = cells cell := by
  induction treeHashes, leaves, cells using storeDigests.induct with
  | case1 first treeHashes leaf leaves cells ih =>
      rw [List.mem_cons, not_or] at outside
      rw [storeDigests, ih outside.2, Function.update_of_ne outside.1]
  | case2 => simp [storeDigests]

/-- Behind different pointers the cells hold the digests in their order. -/
theorem map_storeDigests {treeHashes : List Nat} {leaves : List Digest} (cells : Nat → Digest)
    (different : treeHashes.Nodup) (length_eq : treeHashes.length = leaves.length) :
    treeHashes.map (storeDigests treeHashes leaves cells) = leaves := by
  induction treeHashes generalizing leaves cells with
  | nil => exact (List.length_eq_zero_iff.mp length_eq.symm).symm
  | cons cell treeHashes ih =>
      obtain ⟨leaf, leaves, rfl⟩ := List.exists_cons_of_length_eq_add_one length_eq.symm
      obtain ⟨fresh, different⟩ := List.nodup_cons.mp different
      rw [List.map_cons, storeDigests, storeDigests_of_notMem fresh, Function.update_self,
        ih _ different (by simpa using length_eq)]

theorem nodup_range'_malloc (different : Function.Injective malloc) (txCount : Nat) :
    (malloc 0 :: (List.range' 2 txCount).map malloc).Nodup := by
  rw [← List.map_cons]
  apply List.Nodup.map different
  rw [List.nodup_cons]
  refine ⟨?_, List.nodup_range'⟩
  intro member
  have lower := (List.mem_range'_1.mp member).1
  omega

end Blocks

theorem length_merkleLeaves {txs : List Tx} {i remaining : Nat} {txBuffer : Buffer}
    {leaves : List Digest} (ran : merkleLeaves sha256 txs i remaining txBuffer = .ok leaves) :
    leaves.length = remaining := by
  induction remaining generalizing i txBuffer leaves with
  | zero =>
      obtain rfl := Except.ok.inj ran
      rfl
  | succ remaining ih =>
      simp only [merkleLeaves, Run.bind_eq_ok, Run.pure_eq_ok, Except.ok.injEq] at ran
      obtain ⟨_, _, _, _, _, _, _, _, rest, later, rfl⟩ := ran
      rw [List.length_cons, ih later]

/-! ## The leaf loop -/

section Leaves

variable {txs : List Tx} {i remaining : Nat} {txBuffer : Buffer}

/-- A leaf loop that returns serialized every transaction on its way. -/
theorem fits_of_merkleLeaves {leaves : List Digest} (counted : ∀ tx ∈ txs, tx.Counted)
    (size_eq : txBuffer.size = maxTxSize)
    (ran : merkleLeaves sha256 txs i remaining txBuffer = .ok leaves) :
    ∀ tx ∈ (txs.drop i).take remaining, tx.FitsWorkBuffer := by
  induction remaining generalizing i txBuffer leaves with
  | zero => simp
  | succ remaining ih =>
      simp only [merkleLeaves, Run.bind_eq_ok, intAdd_eq_ok] at ran
      obtain ⟨tx, fetched, after, serialized, _, _, _, ⟨_, rfl⟩, _, rest, _⟩ := ran
      obtain ⟨inside, rfl⟩ := List.getElem?_eq_some_iff.mp (fetch_eq_ok.mp fetched)
      have room : sizeTxHeader ≤ txBuffer.size := by
        rw [size_eq]
        decide
      have first := (exists_txSerialize_iff (counted _ (List.getElem_mem inside)) size_eq).mp
        ⟨after, serialized⟩
      have later := ih ((size_of_txSerialize room serialized).trans size_eq) rest
      rw [List.drop_eq_getElem_cons inside, List.take_succ_cons]
      exact List.forall_mem_cons.mpr ⟨first, later⟩

/-- Transactions that fit the work buffer are hashed one after the other. -/
theorem exists_merkleLeaves (sha256 : List UInt8 → Digest) (counted : ∀ tx ∈ txs, tx.Counted)
    (fits : ∀ tx ∈ txs, tx.FitsWorkBuffer) (size_eq : txBuffer.size = maxTxSize)
    (inside : i + remaining ≤ txs.length) (small : i + remaining < 2 ^ 31) :
    ∃ leaves, merkleLeaves sha256 txs i remaining txBuffer = .ok leaves := by
  induction remaining generalizing i txBuffer with
  | zero => exact ⟨[], rfl⟩
  | succ remaining ih =>
      have within : i < txs.length := by omega
      have member := List.getElem_mem within
      have room : sizeTxHeader ≤ txBuffer.size := by
        rw [size_eq]
        decide
      obtain ⟨after, serialized⟩ :=
        (exists_txSerialize_iff (counted _ member) size_eq).mpr (fits _ member)
      have afterSize := (size_of_txSerialize room serialized).trans size_eq
      have loaded : after.read 0 (txComputeSize txs[i]).toNat = .ok _ := Buffer.read_of_le (by
        rw [Nat.zero_add, afterSize]
        exact (fits _ member).size_le)
      obtain ⟨leaves, rest⟩ := ih afterSize (i := i + 1) (by omega) (by omega)
      exact ⟨_, by
        rw [merkleLeaves, fetch_of_lt within, Run.ok_bind, serialized, Run.ok_bind, loaded,
          Run.ok_bind, intAdd_of_lt (by omega), Run.ok_bind, rest]
        rfl⟩

end Leaves

/-! ## The whole function -/

section Root

variable {malloc : Nat → Nat} {cells : Nat → Digest} {txs : List Tx} {txCount : UInt32}
  {txBuffer : Nat → UInt8}

/-- The reduction starts from the leaf digests, in cells that are all different. -/
theorem merkleStart_eq_ok {start : MerkleCells} :
    merkleStart sha256 malloc cells txs txCount txBuffer = .ok start ↔
      txCount.toNat < 2 ^ 31 ∧ ∃ leaves,
        merkleLeaves sha256 txs 0 txCount.toNat { size := maxTxSize, byte := txBuffer } =
          .ok leaves ∧
        start = { cells := storeDigests ((List.range' 2 txCount.toNat).map malloc) leaves cells
                  treeHashes := (List.range' 2 txCount.toNat).map malloc
                  buffer := malloc 0 } := by
  constructor
  · intro started
    by_cases small : txCount.toNat < 2 ^ 31
    · rw [merkleStart, merkleAllocate_eq (by omega), Run.ok_bind] at started
      obtain ⟨leaves, ran, started⟩ := Run.bind_eq_ok.mp started
      exact ⟨small, leaves, ran, (Except.ok.inj started).symm⟩
    · rw [merkleStart, merkleAllocate_overflow (by omega) (by omega)] at started
      cases started
  · rintro ⟨small, leaves, ran, rfl⟩
    rw [merkleStart, merkleAllocate_eq (by omega), Run.ok_bind, ran]
    rfl

/-- What the reduction starts from. -/
structure MerkleStarted (malloc : Nat → Nat) (txCount : Nat) (leaves : List Digest)
    (start : MerkleCells) : Prop where
  treeHashes : start.treeHashes = (List.range' 2 txCount).map malloc
  buffer : start.buffer = malloc 0
  values : start.values = leaves
  distinct : start.Distinct

theorem MerkleStarted.length_values {leaves : List Digest} {start : MerkleCells} {txCount : Nat}
    (started : MerkleStarted malloc txCount leaves start) : start.values.length = txCount := by
  rw [MerkleCells.length_values, started.treeHashes, List.length_map, List.length_range']

/-- The reduction starts when the leaf loop returns and its digests can be counted. -/
theorem exists_merkleStart (cells : Nat → Digest) (different : Function.Injective malloc)
    {leaves : List Digest} (small : txCount.toNat < 2 ^ 31)
    (ran : merkleLeaves sha256 txs 0 txCount.toNat { size := maxTxSize, byte := txBuffer } =
      .ok leaves) :
    ∃ start, merkleStart sha256 malloc cells txs txCount txBuffer = .ok start ∧
      MerkleStarted malloc txCount.toNat leaves start := by
  have distinct := nodup_range'_malloc different txCount.toNat
  refine ⟨_, merkleStart_eq_ok.mpr ⟨small, leaves, ran, rfl⟩, rfl, rfl, ?_, distinct⟩
  exact map_storeDigests cells (List.nodup_cons.mp distinct).2
    (by rw [List.length_map, List.length_range', length_merkleLeaves ran])

/-- The whole function on leaves it can count: the root of the pairwise reduction is returned, and
the blocks freed are those behind the pointers. -/
theorem computeMerkleRootIn_eq (cells : Nat → Digest) (different : Function.Injective malloc)
    {leaves : List Digest} (nonempty : 1 ≤ txCount.toNat) (small : txCount.toNat < 2 ^ 31)
    (ran : merkleLeaves sha256 txs 0 txCount.toNat { size := maxTxSize, byte := txBuffer } =
      .ok leaves) :
    ∃ start state root, merkleStart sha256 malloc cells txs txCount txBuffer = .ok start ∧
      MerkleStarted malloc txCount.toNat leaves start ∧
      merkleLevels sha256 txCount.toNat txCount.toNat start = .ok state ∧
      computeMerkleRootIn sha256 malloc cells txs txCount txBuffer =
        .ok (root, malloc (txCount.toNat + 2) :: state.buffer :: malloc 1 :: state.treeHashes) ∧
      PairTree.root (merkleNode sha256) leaves = some root := by
  obtain ⟨start, started, holds⟩ := exists_merkleStart cells different small ran
  obtain ⟨state, first, levels, length_eq, fetched, root_eq⟩ :=
    merkleLevels_root sha256 holds.distinct holds.length_values nonempty small
  have freed : merkleFrees state.treeHashes 0 txCount.toNat = .ok state.treeHashes :=
    merkleFrees_eq (by omega) (by omega)
  rw [holds.values] at root_eq
  refine ⟨start, state, state.cells first, started, holds, levels, ?_, root_eq⟩
  simp only [computeMerkleRootIn, started, levels, fetched, freed, Run.ok_bind]
  rfl

theorem small_of_computeMerkleRootIn {result : Digest × List Nat}
    (ran : computeMerkleRootIn sha256 malloc cells txs txCount txBuffer = .ok result) :
    txCount.toNat < 2 ^ 31 := by
  by_contra beyond
  rw [computeMerkleRootIn, merkleStart, merkleAllocate_overflow (by omega) (by omega)] at ran
  cases ran

theorem positive_of_computeMerkleRootIn {result : Digest × List Nat}
    (ran : computeMerkleRootIn sha256 malloc cells txs txCount txBuffer = .ok result) :
    1 ≤ txCount.toNat := by
  by_contra missing
  have zero : txCount.toNat = 0 := by omega
  rw [computeMerkleRootIn, merkleStart, zero] at ran
  cases ran

/-- `compute_merkle_root` returns, whatever its memory held, exactly when there is a transaction, an
`int` can count the transactions, and the work buffer holds the records of each. -/
theorem exists_computeMerkleRootIn_iff (cells : Nat → Digest) (txBuffer : Nat → UInt8)
    (different : Function.Injective malloc) (count : txCount.toNat = txs.length)
    (counted : ∀ tx ∈ txs, tx.Counted) :
    (∃ result, computeMerkleRootIn sha256 malloc cells txs txCount txBuffer = .ok result) ↔
      1 ≤ txCount.toNat ∧ txCount.toNat < 2 ^ 31 ∧ ∀ tx ∈ txs, tx.FitsWorkBuffer := by
  constructor
  · rintro ⟨result, ran⟩
    obtain ⟨start, started, _⟩ := Run.bind_eq_ok.mp ran
    obtain ⟨small, leaves, leafRun, _⟩ := merkleStart_eq_ok.mp started
    have fits := fits_of_merkleLeaves counted rfl leafRun
    rw [List.drop_zero, count, List.take_length] at fits
    exact ⟨positive_of_computeMerkleRootIn ran, small, fits⟩
  · rintro ⟨nonempty, small, fits⟩
    obtain ⟨leaves, leafRun⟩ : ∃ leaves, merkleLeaves sha256 txs 0 txCount.toNat
        { size := maxTxSize, byte := txBuffer } = .ok leaves :=
      exists_merkleLeaves sha256 counted fits rfl (by omega) (by omega)
    obtain ⟨_, _, root, _, _, _, ran, _⟩ :=
      computeMerkleRootIn_eq cells different nonempty small leafRun
    exact ⟨_, ran⟩

theorem exists_computeMerkleRoot_iff (txBuffer : Nat → UInt8) (count : txCount.toNat = txs.length)
    (counted : ∀ tx ∈ txs, tx.Counted) :
    (∃ root, computeMerkleRoot sha256 txs txCount txBuffer = .ok root) ↔
      1 ≤ txCount.toNat ∧ txCount.toNat < 2 ^ 31 ∧ ∀ tx ∈ txs, tx.FitsWorkBuffer := by
  rw [← @exists_computeMerkleRootIn_iff sha256 id txs txCount (fun _ => zeroDigest) txBuffer
    Function.injective_id count counted]
  constructor
  · rintro ⟨root, ran⟩
    obtain ⟨result, ran, _⟩ := Run.bind_eq_ok.mp ran
    exact ⟨result, ran⟩
  · rintro ⟨result, ran⟩
    exact ⟨result.1, by rw [computeMerkleRoot, ran]; rfl⟩

/-- The root is that of the in-place reduction of the leaf digests, whatever cells it ran on. -/
theorem computeMerkleRoot_eq_ok {root : Digest} :
    computeMerkleRoot sha256 txs txCount txBuffer = .ok root ↔ ∃ leaves,
      merkleLeaves sha256 txs 0 txCount.toNat { size := maxTxSize, byte := txBuffer } =
        .ok leaves ∧ merkleReduce sha256 leaves = .ok root := by
  have run_eq : ∀ {leaves : List Digest},
      merkleLeaves sha256 txs 0 txCount.toNat { size := maxTxSize, byte := txBuffer } =
        .ok leaves → 1 ≤ txCount.toNat → txCount.toNat < 2 ^ 31 →
      computeMerkleRoot sha256 txs txCount txBuffer = merkleReduce sha256 leaves := by
    intro leaves ran nonempty small
    have length_eq : leaves.length = txCount.toNat := length_merkleLeaves ran
    obtain ⟨_, _, reference, _, _, _, computed, root_eq⟩ := computeMerkleRootIn_eq
      (fun _ => zeroDigest) Function.injective_id nonempty small ran
    obtain ⟨reduced, reduce_eq, reduced_root⟩ := @merkleReduce_eq sha256 leaves
      (List.ne_nil_of_length_pos (by omega)) (by omega)
    obtain rfl := Option.some.inj (root_eq.symm.trans reduced_root)
    rw [computeMerkleRoot, computed, reduce_eq]
    rfl
  constructor
  · intro computed
    have whole := computed
    obtain ⟨result, whole, _⟩ := Run.bind_eq_ok.mp whole
    have small := small_of_computeMerkleRootIn whole
    have nonempty := positive_of_computeMerkleRootIn whole
    obtain ⟨start, started, _⟩ := Run.bind_eq_ok.mp whole
    obtain ⟨_, leaves, ran, _⟩ := merkleStart_eq_ok.mp started
    exact ⟨leaves, ran, (run_eq ran nonempty small).symm.trans computed⟩
  · rintro ⟨leaves, ran, reduced⟩
    have range := (exists_merkleReduce_iff sha256 leaves).mp ⟨root, reduced⟩
    rw [length_merkleLeaves ran] at range
    exact (run_eq ran range.1 range.2).trans reduced

end Root

end Freecoin
