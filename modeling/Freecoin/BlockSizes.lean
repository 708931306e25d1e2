import Freecoin.Walkers

/-!
# Block sizes

`block_compute_size` adds up the counts of a block structure in an `int`, and
`block_raw_compute_size` finds each count behind the records it has already measured.  On a block
that fits a block buffer both return its exact size, and every sum on the way stays in range.
-/

namespace Freecoin

open Foundation

/-- The size of a transaction with these counts. -/
def exactTxSize (inCount outCount : UInt16) : Nat :=
  sizeTxHeader + sizeTxInput * inCount.toNat + sizeTxOutput * outCount.toNat

/-- The size of a block. -/
def Block.exactSize (block : Block) : Nat :=
  sizeBlockHeader + (block.txs.map fun tx => exactTxSize tx.header.inCount tx.header.outCount).sum

/-- The block structure of a raw block. -/
def RawBlock.block (raw : RawBlock) : Block where
  header := raw.header
  txs := raw.txs

/-! ## Ranges -/

/-- The products and sums of both size functions of a transaction are in the range of an `int`, in
the order in which either of them adds. -/
def CountsInRange (inCount outCount : UInt16) : Prop :=
  sizeTxInput * inCount.toNat < 2 ^ 31 ∧ sizeTxOutput * outCount.toNat < 2 ^ 31 ∧
    sizeTxHeader + sizeTxInput * inCount.toNat < 2 ^ 31 ∧
    sizeTxInput * inCount.toNat + sizeTxOutput * outCount.toNat < 2 ^ 31 ∧
    exactTxSize inCount outCount < 2 ^ 31

/-- No step of the loop of `block_compute_size` leaves the range of its `int`. -/
def SizeSteps (txs : List Tx) : (index remaining : Nat) → (size : UInt32) → Prop
  | _, 0, _ => True
  | index, remaining + 1, size =>
      ∃ tx, fetch txs index = .ok tx ∧ CountsInRange tx.header.inCount tx.header.outCount ∧
        size.toNat + (txComputeSize tx).toNat < 2 ^ 31 ∧
        SizeSteps txs (index + 1) remaining (size + txComputeSize tx)

/-- No step of the loop of `block_raw_compute_size` does. -/
def RawSizeSteps (block : List UInt8) : (remaining : Nat) → (cursor : UInt32) → Prop
  | 0, _ => True
  | remaining + 1, cursor =>
      ∃ inCount outCount size,
        btous ((block.drop cursor.toNat).drop posTxHeaderInCount) = .ok inCount ∧
        btous ((block.drop cursor.toNat).drop posTxHeaderOutCount) = .ok outCount ∧
        CountsInRange inCount outCount ∧ txRawComputeSize (block.drop cursor.toNat) = .ok size ∧
        cursor.toNat + size.toNat < 2 ^ 31 ∧ RawSizeSteps block remaining (cursor + size)

theorem countsInRange (inCount outCount : UInt16) : CountsInRange inCount outCount := by
  have inBound := inCount.toNat_lt
  have outBound := outCount.toNat_lt
  simp only [CountsInRange, exactTxSize, sizeTxHeader, sizeTxInput, sizeTxOutput]
  omega

theorem toNat_txComputeSize_eq (tx : Tx) :
    (txComputeSize tx).toNat = exactTxSize tx.header.inCount tx.header.outCount := by
  rw [toNat_txComputeSize, exactTxSize, sizeTxHeader, sizeTxInput, sizeTxOutput]
  omega

/-! ## The two loops -/

namespace RawBlock

variable (raw : RawBlock)

theorem offset_eq_exactSize : raw.offset raw.txs.length = raw.block.exactSize := by
  rw [offset, List.take_length, List.length_flatMap, Block.exactSize]
  congr 2
  apply List.map_congr_left
  intro tx member
  rw [← toNat_txComputeSize_eq, toNat_txComputeSize_of_counted (raw.counted tx member)]

/-- The size of a transaction is what lies between its offset and the next one. -/
theorem offset_add_size {i : Nat} (inside : i < raw.txs.length) :
    raw.offset i + (txComputeSize raw.txs[i]).toNat = raw.offset (i + 1) := by
  rw [raw.offset_succ inside,
    toNat_txComputeSize_of_counted (raw.counted _ (List.getElem_mem inside))]

variable (small : raw.offset raw.txs.length < 2 ^ 31)

include small

theorem toNat_ofNat_offset_of_le {i : Nat} (inside : i ≤ raw.txs.length) :
    (UInt32.ofNat (raw.offset i)).toNat = raw.offset i := by
  have before := raw.offset_mono inside
  exact toNat_ofNat_of_lt (by omega)

theorem sizeSteps {i remaining : Nat} (inside : i + remaining = raw.txs.length) :
    SizeSteps raw.txs i remaining (.ofNat (raw.offset i)) := by
  induction remaining generalizing i with
  | zero => trivial
  | succ remaining ih =>
      have within : i < raw.txs.length := by omega
      have after := raw.offset_mono (show i + 1 ≤ raw.txs.length from within)
      refine ⟨raw.txs[i], fetch_of_lt within, countsInRange _ _, ?_, ?_⟩
      · rw [raw.toNat_ofNat_offset_of_le small (Nat.le_of_lt within), raw.offset_add_size within]
        omega
      · rw [raw.cursor_add_size within]
        exact ih (by omega)

theorem rawSizeSteps {i remaining : Nat} (inside : i + remaining = raw.txs.length) :
    RawSizeSteps raw.bytes remaining (.ofNat (raw.offset i)) := by
  induction remaining generalizing i with
  | zero => trivial
  | succ remaining ih =>
      have within : i < raw.txs.length := by omega
      have after := raw.offset_mono (show i + 1 ≤ raw.txs.length from within)
      have sized := raw.txRawComputeSize_at within
      have parts := sized
      simp only [txRawComputeSize, Run.bind_eq_ok] at parts
      obtain ⟨inCount, inRead, outCount, outRead, _⟩ := parts
      rw [RawSizeSteps, raw.toNat_ofNat_offset_of_le small (Nat.le_of_lt within)]
      refine ⟨inCount, outCount, _, inRead, outRead, countsInRange _ _, sized, ?_, ?_⟩
      · rw [raw.offset_add_size within]
        omega
      · rw [raw.cursor_add_size within]
        exact ih (by omega)

end RawBlock

/-- Both size functions return the exact size of a block that fits a block buffer, whatever follows
it in memory, and no sum on the way leaves its range.  On each transaction the structure and the
bytes give one size. -/
theorem blockSizes_exact (raw : RawBlock) (small : raw.block.exactSize ≤ maxBlockSize) :
    UInt32.toNat <$> blockComputeSize raw.block = .ok raw.block.exactSize ∧
    UInt32.toNat <$> blockRawComputeSize raw.bytes = .ok raw.block.exactSize ∧
    raw.header.txCount.toNat < 2 ^ 31 ∧
    SizeSteps raw.txs 0 raw.header.txCount.toNat (.ofNat sizeBlockHeader) ∧
    RawSizeSteps raw.bytes raw.header.txCount.toNat (.ofNat sizeBlockHeader) ∧
    ∀ tx ∈ raw.txs, ∀ rest, txRawComputeSize (tx.bytes ++ rest) = .ok (txComputeSize tx) ∧
      (txComputeSize tx).toNat = exactTxSize tx.header.inCount tx.header.outCount := by
  rw [← raw.offset_eq_exactSize] at small ⊢
  have bounded : raw.offset raw.txs.length < 2 ^ 31 := by
    rw [maxBlockSize] at small
    omega
  have counted := raw.le_offset le_rfl
  have end_eq := raw.toNat_ofNat_offset_of_le bounded le_rfl
  have looped := raw.blockComputeSizeLoop_eq 0 raw.txs.length (by omega) (by omega)
  refine ⟨?_, ?_, ?_, ?_, ?_, ?_⟩
  · rw [blockComputeSize, RawBlock.block, raw.count]
    rw [raw.offset_zero] at looped
    rw [looped]
    exact congrArg Except.ok end_eq
  · rw [raw.blockRawComputeSize_eq (raw.addressable_of_le small)]
    exact congrArg Except.ok end_eq
  · rw [raw.count]
    omega
  · rw [raw.count]
    exact raw.sizeSteps bounded (Nat.zero_add _)
  · rw [raw.count]
    exact raw.rawSizeSteps bounded (Nat.zero_add _)
  · intro tx member rest
    exact ⟨txRawComputeSize_bytes rest, toNat_txComputeSize_eq tx⟩

/-- A block of a coinbase with one output and a transaction with an input and two outputs. -/
def spendingBlock : RawBlock where
  header := { twoTxBlock.header with height := 1 }
  txs :=
    [{ header := { version := 2, inCount := 0, outCount := 1, lockTime := 0 }, ins := []
       outs := [{ outAddr := List.Vector.replicate 32 1, amount := 20 }] },
      { header := { version := 2, inCount := 1, outCount := 2, lockTime := 0 }
        ins :=
          [{ outIndex := 3, refTx := List.Vector.replicate 32 2
             pubkey := List.Vector.replicate 128 4, sig := List.Vector.replicate 128 5 }]
        outs :=
          [{ outAddr := List.Vector.replicate 32 6, amount := 7 },
            { outAddr := List.Vector.replicate 32 8, amount := 9 }] }]
  trailing := []
  count := rfl
  counted := by decide

/-- That block has 84 bytes for its header, 46 for the coinbase and 372 for the other one. -/
theorem blockSizes_exact_spendingBlock :
    UInt32.toNat <$> blockComputeSize spendingBlock.block = .ok 502 ∧
      UInt32.toNat <$> blockRawComputeSize spendingBlock.bytes = .ok 502 := by
  obtain ⟨size, rawSize, _⟩ := blockSizes_exact spendingBlock (by decide)
  exact ⟨size, rawSize⟩

end Freecoin
