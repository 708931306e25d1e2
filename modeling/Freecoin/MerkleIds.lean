import Freecoin.MerkleRoots
import Freecoin.Walkers

/-!
# The Merkle root and the transaction ids

A transaction reaches its digest on two routes: the index hashes its raw bytes, and
`compute_merkle_root` hashes what `tx_serialize` makes of the deserialized structure in a work
buffer that nobody cleared.  The two roots agree for every content of that buffer only on blocks
that repeat one short transaction whose record reads the same in both byte orders; on any other
block, agreement takes a collision between strings hashed on the two routes.
-/

namespace Freecoin

open Foundation

/-! ## The strings that are hashed -/

/-- The strings the leaf loop hashes. -/
def merkleLeafStrings (txs : List Tx) :
    (i remaining : Nat) → (txBuffer : Buffer) → Run (List (List UInt8))
  | _, 0, _ => .ok []
  | i, remaining + 1, txBuffer => do
      let tx ← fetch txs i
      let txBuffer ← txSerialize tx txBuffer 0
      let bytes ← txBuffer.read 0 (txComputeSize tx).toNat
      let i ← intAdd i 1
      let strings ← merkleLeafStrings txs i remaining txBuffer
      return bytes :: strings

theorem merkleLeaves_eq_ok {sha256 : List UInt8 → Digest} {txs : List Tx} {index remaining : Nat}
    {txBuffer : Buffer} {leaves : List Digest} :
    merkleLeaves sha256 txs index remaining txBuffer = .ok leaves ↔
      ∃ strings, merkleLeafStrings txs index remaining txBuffer = .ok strings ∧
        leaves = strings.map sha256 := by
  induction remaining generalizing index txBuffer leaves with
  | zero => simp [merkleLeaves, merkleLeafStrings, eq_comm]
  | succ remaining ih =>
      simp only [merkleLeaves, merkleLeafStrings, Run.bind_eq_ok, ih, Run.pure_eq_ok,
        Except.ok.injEq]
      constructor
      · rintro ⟨tx, fetched, after, ran, bytes, loaded, i, next, _, ⟨strings, rest, rfl⟩, rfl⟩
        exact ⟨_, ⟨tx, fetched, after, ran, bytes, loaded, i, next, strings, rest, rfl⟩, rfl⟩
      · rintro ⟨_, ⟨tx, fetched, after, ran, bytes, loaded, i, next, strings, rest, rfl⟩, rfl⟩
        exact ⟨tx, fetched, after, ran, bytes, loaded, i, next, _, ⟨strings, rest, rfl⟩, rfl⟩

theorem length_merkleLeafStrings {txs : List Tx} {i remaining : Nat} {txBuffer : Buffer}
    {strings : List (List UInt8)}
    (ran : merkleLeafStrings txs i remaining txBuffer = .ok strings) :
    strings.length = remaining := by
  have leaves : merkleLeaves (fun _ => zeroDigest) txs i remaining txBuffer =
      .ok (strings.map fun _ => zeroDigest) := merkleLeaves_eq_ok.mpr ⟨strings, ran, rfl⟩
  rw [← length_merkleLeaves leaves, List.length_map]

/-- The loop that returns has counted its strings with an `int`. -/
theorem small_of_merkleLeafStrings {txs : List Tx} {i remaining : Nat} {txBuffer : Buffer}
    {strings : List (List UInt8)} (start : i < 2 ^ 31)
    (ran : merkleLeafStrings txs i remaining txBuffer = .ok strings) : i + remaining < 2 ^ 31 := by
  induction remaining generalizing i txBuffer strings with
  | zero => exact start
  | succ remaining ih =>
      simp only [merkleLeafStrings, Run.bind_eq_ok, intAdd_eq_ok] at ran
      obtain ⟨_, _, _, _, _, _, _, ⟨next, rfl⟩, _, rest, _⟩ := ran
      have small := ih next rest
      omega

/-- A short transaction that repeats is hashed as its objects every time, whatever the buffer
held. -/
theorem merkleLeafStrings_of_short {tx : Tx} (counted : tx.Counted) (short : tx.Short)
    (count : Nat) {index remaining : Nat} {txBuffer : Buffer} (size_eq : txBuffer.size = maxTxSize)
    (inside : index + remaining = count) (few : count < 2 ^ 31) :
    merkleLeafStrings (List.replicate count tx) index remaining txBuffer =
      .ok (List.replicate remaining tx.objects) := by
  have size : (txComputeSize tx).toNat = tx.objects.length := by
    rw [toNat_txComputeSize_of_counted counted, tx.length_objects]
  have small : tx.objects.length ≤ maxTxSize := by
    rw [← size, toNat_txComputeSize, maxTxSize]
    simp only [Tx.Short] at short
    omega
  induction remaining generalizing index txBuffer with
  | zero => rfl
  | succ remaining ih =>
      have fits : 0 + tx.bytes.length ≤ txBuffer.size := by
        rw [size_eq, ← tx.length_objects]
        omega
      have loaded : (txBuffer.write 0 tx.objects).read 0 (txComputeSize tx).toNat =
          .ok tx.objects := by
        rw [Buffer.read_of_le (by rw [Buffer.size_write, size_eq, size]; omega), size,
          Buffer.window_write_self]
      rw [merkleLeafStrings, fetch_of_lt (by simp; omega), Run.ok_bind, List.getElem_replicate,
        txSerialize_of_short txBuffer 0 counted short fits, Run.ok_bind, loaded, Run.ok_bind,
        intAdd_of_lt (by omega), Run.ok_bind, ih (by rw [Buffer.size_write, size_eq]) (by omega)]
      rfl

/-- The first string is read from the buffer the first transaction was serialized into. -/
theorem head_merkleLeafStrings {tx : Tx} {txs : List Tx} {remaining : Nat} {txBuffer : Buffer}
    {strings : List (List UInt8)}
    (ran : merkleLeafStrings (tx :: txs) 0 (remaining + 1) txBuffer = .ok strings) :
    ∃ after, txSerialize tx txBuffer 0 = .ok after ∧
      strings.head? = some (after.window 0 (txComputeSize tx).toNat) := by
  simp only [merkleLeafStrings, Run.bind_eq_ok, Run.pure_eq_ok, Except.ok.injEq] at ran
  obtain ⟨first, fetched, after, serialized, bytes, loaded, _, _, rest, _, rfl⟩ := ran
  obtain rfl := Except.ok.inj fetched
  refine ⟨after, serialized, ?_⟩
  rw [Buffer.read] at loaded
  split at loaded
  · obtain rfl := Except.ok.inj loaded
    rfl
  · contradiction

/-! ## Bytes and transactions -/

/-- Counted transactions with the same bytes are equal. -/
theorem Tx.eq_of_bytes_eq {left right : Tx} (leftCounted : left.Counted)
    (rightCounted : right.Counted) (bytes_eq : left.bytes = right.bytes) : left = right := by
  have loaded := mTxDeserialize_bytes leftCounted []
  rw [bytes_eq, mTxDeserialize_bytes rightCounted] at loaded
  exact (Except.ok.inj loaded).symm

/-! ## Agreement -/

/-- The root `compute_merkle_root` computes for the deserialized block is the pairwise root of the
digests of its raw transactions. -/
structure MerkleAgrees (sha256 : List UInt8 → Digest) (raw : List UInt8) (txBuffer : Nat → UInt8)
    (block : Block) (ids : List Digest) (root : Digest) : Prop where
  deserialized : mBlockDeserialize raw = .ok block
  ids_length : ids.length = block.header.txCount.toNat
  ids_eq : ∀ i < block.header.txCount.toNat, ∃ offset digest, txOffset raw i = .ok offset ∧
    txRawComputeHash sha256 (raw.drop offset) = .ok digest ∧ ids[i]? = some digest
  reference : PairTree.root (merkleNode sha256) ids = some root
  computed : computeMerkleRoot sha256 block.txs block.header.txCount txBuffer = .ok root

namespace RawBlock

/-- The digests of the raw transactions. -/
def txIds (raw : RawBlock) (sha256 : List UInt8 → Digest) : List Digest :=
  raw.txs.map fun tx => sha256 tx.bytes

/-- The strings `compute_merkle_root` hashes for the deserialized block. -/
def leafStrings (raw : RawBlock) (txBuffer : Nat → UInt8) : Run (List (List UInt8)) :=
  merkleLeafStrings raw.loadedTxs 0 raw.txs.length { size := maxTxSize, byte := txBuffer }

/-- The blocks whose transactions survive the detour through the structure: one short transaction,
repeated as often as an `int` can count, with integers that read the same in both byte orders. -/
structure Reserializes (raw : RawBlock) : Prop where
  few : raw.txs.length < 2 ^ 31
  uniform : raw.Uniform
  short : ∀ tx ∈ raw.txs, tx.Short
  outIndex : ∀ tx ∈ raw.txs, ∀ input ∈ tx.ins, hostShort input.outIndex = ustob input.outIndex
  amount : ∀ tx ∈ raw.txs, ∀ output ∈ tx.outs, hostInt output.amount = uitob output.amount

/-- Two different strings with one digest, hashed at the same place of the two computations: a leaf
string and the raw transaction, or the two pairs of a node. -/
def MerkleCollision (raw : RawBlock) (sha256 : List UInt8 → Digest) (txBuffer : Nat → UInt8) :
    Prop :=
  ∃ strings, raw.leafStrings txBuffer = .ok strings ∧
    ((∃ (i : Nat) (string : List UInt8) (tx : Tx), strings[i]? = some string ∧
      raw.txs[i]? = some tx ∧ string ≠ tx.bytes ∧ sha256 string = sha256 tx.bytes) ∨
    PairTree.Clash (merkleNode sha256) (strings.map sha256) (raw.txIds sha256))

end RawBlock

section Agreement

variable {sha256 : List UInt8 → Digest} {raw : RawBlock} {txBuffer : Nat → UInt8}

theorem MerkleAgrees.ids_eq_txIds {block : Block} {ids : List Digest} {root : Digest}
    (agree : MerkleAgrees sha256 raw.bytes txBuffer block ids root) : ids = raw.txIds sha256 := by
  obtain ⟨_, rfl⟩ := mBlockDeserialize_eq_ok.mp agree.deserialized
  have length_eq : ids.length = raw.txs.length := agree.ids_length.trans raw.count
  apply List.ext_getElem
  · rw [length_eq, RawBlock.txIds, List.length_map]
  · intro i insideIds insideTxs
    have inside : i < raw.txs.length := length_eq ▸ insideIds
    obtain ⟨offset, digest, offset_eq, hashed, stored⟩ :=
      agree.ids_eq i (by simpa [raw.count] using inside)
    obtain rfl := Except.ok.inj (offset_eq.symm.trans (raw.txOffset_eq (Nat.le_of_lt inside)))
    rw [raw.txRawComputeHash_at sha256 inside] at hashed
    rw [List.getElem?_eq_getElem insideIds, Option.some.injEq] at stored
    rw [stored, ← Except.ok.inj hashed]
    simp [RawBlock.txIds]

/-- The two roots agree exactly when the leaf loop returns and its digests have the root of the
transaction ids. -/
theorem merkleAgrees_iff_root_eq (nonempty : raw.txs ≠ []) :
    (∃ block ids root, MerkleAgrees sha256 raw.bytes txBuffer block ids root) ↔
      ∃ strings, raw.leafStrings txBuffer = .ok strings ∧
        PairTree.root (merkleNode sha256) (strings.map sha256) =
          PairTree.root (merkleNode sha256) (raw.txIds sha256) := by
  have computed_eq : ∀ {root : Digest},
      computeMerkleRoot sha256 raw.loadedTxs raw.header.txCount txBuffer = .ok root ↔
        ∃ strings, raw.leafStrings txBuffer = .ok strings ∧
          merkleReduce sha256 (strings.map sha256) = .ok root := by
    intro root
    rw [computeMerkleRoot_eq_ok, raw.count]
    constructor
    · rintro ⟨leaves, leafRun, reduced⟩
      obtain ⟨strings, ran, rfl⟩ := merkleLeaves_eq_ok.mp leafRun
      exact ⟨strings, ran, reduced⟩
    · rintro ⟨strings, ran, reduced⟩
      exact ⟨_, merkleLeaves_eq_ok.mpr ⟨strings, ran, rfl⟩, reduced⟩
  have leaves_ne : ∀ {strings}, raw.leafStrings txBuffer = .ok strings →
      strings.map sha256 ≠ [] := by
    intro strings ran empty
    have length_eq := length_merkleLeafStrings ran
    rw [List.map_eq_nil_iff.mp empty, List.length_nil] at length_eq
    exact nonempty (List.length_eq_zero_iff.mp length_eq.symm)
  have few : ∀ {strings}, raw.leafStrings txBuffer = .ok strings → raw.txs.length < 2 ^ 31 := by
    intro strings ran
    simpa using small_of_merkleLeafStrings (by decide) ran
  have leaves_few : ∀ {strings}, raw.leafStrings txBuffer = .ok strings →
      (strings.map sha256).length < 2 ^ 31 := by
    intro strings ran
    rw [List.length_map, length_merkleLeafStrings ran]
    exact few ran
  constructor
  · rintro ⟨block, ids, root, agree⟩
    obtain rfl := agree.ids_eq_txIds
    obtain ⟨_, rfl⟩ := mBlockDeserialize_eq_ok.mp agree.deserialized
    obtain ⟨strings, ran, reduced⟩ := computed_eq.mp agree.computed
    obtain ⟨reference, reduced', root_eq⟩ := merkleReduce_eq sha256 (leaves_ne ran) (leaves_few ran)
    obtain rfl := Except.ok.inj (reduced.symm.trans reduced')
    exact ⟨strings, ran, root_eq.trans agree.reference.symm⟩
  · rintro ⟨strings, ran, roots⟩
    obtain ⟨root, reduced, root_eq⟩ := merkleReduce_eq sha256 (leaves_ne ran) (leaves_few ran)
    refine ⟨_, raw.txIds sha256, root, mBlockDeserialize_bytes raw (few ran), ?_, ?_,
      roots.symm.trans root_eq, computed_eq.mpr ⟨strings, ran, reduced⟩⟩
    · rw [RawBlock.txIds, List.length_map, raw.count]
    · intro i inside
      rw [raw.count] at inside
      exact ⟨_, _, raw.txOffset_eq (Nat.le_of_lt inside), raw.txRawComputeHash_at sha256 inside, by
        rw [RawBlock.txIds, List.getElem?_map, List.getElem?_eq_getElem inside]
        rfl⟩

/-- Without a collision, agreement means that every transaction is hashed as its raw bytes. -/
theorem leafStrings_of_agrees (nonempty : raw.txs ≠ [])
    (agree : ∃ block ids root, MerkleAgrees sha256 raw.bytes txBuffer block ids root) :
    raw.leafStrings txBuffer = .ok (raw.txs.map Tx.bytes) ∨
      raw.MerkleCollision sha256 txBuffer := by
  obtain ⟨strings, ran, roots⟩ := (merkleAgrees_iff_root_eq nonempty).mp agree
  have length_eq : strings.length = raw.txs.length := length_merkleLeafStrings ran
  obtain leaves | clash := PairTree.eq_or_clash_of_root_eq
    (by rw [List.length_map, RawBlock.txIds, List.length_map, length_eq]) roots
  · by_cases same : strings = raw.txs.map Tx.bytes
    · exact Or.inl (same ▸ ran)
    · refine Or.inr ⟨strings, ran, Or.inl ?_⟩
      by_contra alone
      apply same
      apply List.ext_getElem (by simp [length_eq])
      intro i insideStrings insideTxs
      have inside : i < raw.txs.length := length_eq ▸ insideStrings
      rw [List.getElem_map]
      by_contra differ
      have digests := congrArg (·[i]?) leaves
      simp only [RawBlock.txIds, List.getElem?_map, List.getElem?_eq_getElem insideStrings,
        List.getElem?_eq_getElem inside, Option.map_some, Option.some.injEq] at digests
      exact alone ⟨i, _, _, List.getElem?_eq_getElem insideStrings, List.getElem?_eq_getElem inside,
        differ, digests⟩
  · exact Or.inr ⟨strings, ran, Or.inr clash⟩

theorem leafStrings_of_reserializes (nonempty : raw.txs ≠ []) (survives : raw.Reserializes) :
    raw.leafStrings txBuffer = .ok (raw.txs.map Tx.bytes) := by
  obtain ⟨first, rest, txs_eq⟩ := List.exists_cons_of_ne_nil nonempty
  have member : first ∈ raw.txs := by simp [txs_eq]
  have counted := raw.counted first member
  have short := survives.short first member
  have objects : first.objects = first.bytes := (Tx.objects_eq_bytes_iff counted short).mpr
    ⟨survives.outIndex first member, survives.amount first member⟩
  have repeated : raw.txs = List.replicate raw.txs.length first := by
    rw [← RawBlock.loadedTxs_of_cons txs_eq, raw.loadedTxs_eq_iff.mpr survives.uniform]
  rw [RawBlock.leafStrings, RawBlock.loadedTxs_of_cons txs_eq,
    merkleLeafStrings_of_short counted short raw.txs.length rfl (Nat.zero_add _)
      survives.few, objects]
  conv_rhs => rw [repeated]
  rw [List.map_replicate]

/-- A transaction with a gap takes up what the work buffer held before. -/
theorem short_of_leafStrings {first : Tx} {rest : List Tx} (txs_eq : raw.txs = first :: rest)
    (ran : ∀ txBuffer, raw.leafStrings txBuffer = .ok (raw.txs.map Tx.bytes)) : first.Short := by
  have counted := raw.counted first (by simp [txs_eq])
  by_contra long
  have gap_lt : first.gap < first.bytes.length := by
    rw [← toNat_txComputeSize_of_counted counted]
    exact first.gap_lt_size long
  -- A buffer filled with a byte that differs from the one that belongs into the gap.
  have filled := ran fun _ => first.bytes[first.gap] + 1
  rw [RawBlock.leafStrings, RawBlock.loadedTxs_of_cons txs_eq, txs_eq, List.length_cons,
    List.replicate_succ] at filled
  obtain ⟨after, serialized, head⟩ := head_merkleLeafStrings filled
  have window : after.window 0 (txComputeSize first).toNat = first.bytes := by
    simpa using head.symm
  have room : sizeTxHeader ≤ maxTxSize := by decide
  have narrow : maxTxSize * sizeTxInput < 2 ^ 32 := by
    rw [maxTxSize, sizeTxInput]
    omega
  have gap_byte := byte_gap_of_txSerialize long serialized room narrow
  have stored : after.byte first.gap = first.bytes[first.gap] := by
    have inWindow : first.gap < (after.window 0 (txComputeSize first).toNat).length := by
      rw [window]
      exact gap_lt
    have read := after.getElem_window 0 _ first.gap inWindow
    rw [Nat.zero_add] at read
    rw [← read]
    simp only [window]
  rw [stored] at gap_byte
  simp at gap_byte

/-- If every content of the work buffer leaves the leaf strings the raw bytes, the block is one
that survives. -/
theorem reserializes_of_leafStrings (nonempty : raw.txs ≠ [])
    (ran : ∀ txBuffer, raw.leafStrings txBuffer = .ok (raw.txs.map Tx.bytes)) :
    raw.Reserializes := by
  obtain ⟨first, rest, txs_eq⟩ := List.exists_cons_of_ne_nil nonempty
  have member : first ∈ raw.txs := by simp [txs_eq]
  have counted := raw.counted first member
  have loaded_eq := RawBlock.loadedTxs_of_cons txs_eq
  have short := short_of_leafStrings txs_eq ran
  have few : raw.txs.length < 2 ^ 31 := by
    simpa using small_of_merkleLeafStrings (by decide) (ran fun _ => 0)
  have bytes_eq : ∀ tx ∈ raw.txs, tx.bytes = first.objects := by
    intro tx inBlock
    have hashed := ran fun _ => 0
    rw [RawBlock.leafStrings, loaded_eq, merkleLeafStrings_of_short counted short raw.txs.length rfl
      (Nat.zero_add _) few] at hashed
    have strings := Except.ok.inj hashed
    exact List.eq_of_mem_replicate (strings ▸ List.mem_map_of_mem inBlock)
  have same : ∀ tx ∈ raw.txs, tx = first := by
    intro tx inBlock
    exact Tx.eq_of_bytes_eq (raw.counted tx inBlock) counted
      ((bytes_eq tx inBlock).trans (bytes_eq first member).symm)
  obtain ⟨indices, amounts⟩ :=
    (Tx.objects_eq_bytes_iff counted short).mp (bytes_eq first member).symm
  refine ⟨few, ?_, ?_, ?_, ?_⟩
  · intro tx inBlock
    rw [same tx inBlock, txs_eq]
    rfl
  · intro tx inBlock
    rw [same tx inBlock]
    exact short
  · intro tx inBlock
    rw [same tx inBlock]
    exact indices
  · intro tx inBlock
    rw [same tx inBlock]
    exact amounts

end Agreement

/-- A block of one transaction with one output. -/
def oneOutputBlock (amount : UInt32) : RawBlock where
  header :=
    { version := 2, time := 0, height := 0, prevHash := List.Vector.replicate 32 0
      merkleRoot := List.Vector.replicate 32 0, target := { mantissa := 0, exponent := 1 }
      nonce := 0, txCount := 1 }
  txs :=
    [{ header := { version := 2, inCount := 0, outCount := 1, lockTime := 0 }, ins := []
       outs := [{ outAddr := List.Vector.replicate 32 0, amount }] }]
  trailing := []
  count := rfl
  counted := by
    intro tx member
    rw [List.mem_singleton.mp member]
    exact ⟨rfl, rfl⟩

set_option maxRecDepth 100000 in
/-- The two byte orders of the amount 1 have different digests. -/
theorem oneOutputBlock_one_digests (tx : Tx) (member : tx ∈ (oneOutputBlock 1).txs) :
    sha256 tx.objects ≠ sha256 tx.bytes := by
  rw [List.mem_singleton.mp member]
  decide +kernel

end Freecoin
