import Freecoin.BlockCodec
import Freecoin.Io
import Freecoin.Sha256

/-!
# The walkers of a raw block

Four loops walk over the transactions of a raw block with cursors of their own: the deserializer,
the two size functions and the index loop of `io_save_block_raw`.  The deserializer never moves its
cursor, so it returns the first transaction as often as the header counts; the others agree as long
as no transaction starts beyond what an `int` can address.
-/

namespace Freecoin

open Foundation

namespace RawBlock

/-- Every transaction of the block is the first one again. -/
def Uniform (raw : RawBlock) : Prop := ∀ tx ∈ raw.txs, raw.txs.head? = some tx

/-- The transactions the deserializer returns. -/
def loadedTxs (raw : RawBlock) : List Tx := raw.txs.head?.elim [] (List.replicate raw.txs.length)

theorem loadedTxs_of_cons {raw : RawBlock} {first : Tx} {rest : List Tx}
    (txs_eq : raw.txs = first :: rest) :
    raw.loadedTxs = List.replicate raw.txs.length first := by
  simp [loadedTxs, txs_eq]

theorem length_loadedTxs (raw : RawBlock) : raw.loadedTxs.length = raw.txs.length := by
  cases txs_eq : raw.txs with
  | nil => simp [loadedTxs, txs_eq]
  | cons first rest => simp [loadedTxs, txs_eq]

/-- The deserializer returns the transactions of the block exactly when they are all the same. -/
theorem loadedTxs_eq_iff (raw : RawBlock) : raw.loadedTxs = raw.txs ↔ raw.Uniform := by
  cases txs_eq : raw.txs with
  | nil => simp [loadedTxs, Uniform, txs_eq]
  | cons first rest =>
      rw [loadedTxs_of_cons txs_eq, txs_eq, Uniform, txs_eq, eq_comm, List.eq_replicate_iff]
      simp [eq_comm]

end RawBlock

/-! ## The deserializer -/

theorem blockDeserializeTxs_eq (src : List UInt8) (cursor : UInt64) (i remaining : Nat) {tx : Tx}
    (loaded : mTxDeserialize (src.drop cursor.toNat) = .ok tx) (small : i + remaining < 2 ^ 31) :
    blockDeserializeTxs src cursor i remaining = .ok (List.replicate remaining tx) := by
  induction remaining generalizing i with
  | zero => rfl
  | succ remaining ih =>
      rw [blockDeserializeTxs, loaded, Run.ok_bind, intAdd_of_lt (by omega), Run.ok_bind,
        ih (i + 1) (by omega)]
      rfl

/-- The loop that returns has counted its transactions with an `int`. -/
theorem small_of_blockDeserializeTxs {src : List UInt8} {cursor : UInt64} {i remaining : Nat}
    {txs : List Tx} (start : i < 2 ^ 31)
    (loaded : blockDeserializeTxs src cursor i remaining = .ok txs) : i + remaining < 2 ^ 31 := by
  induction remaining generalizing i txs with
  | zero => exact start
  | succ remaining ih =>
      simp only [blockDeserializeTxs, Run.bind_eq_ok, intAdd_eq_ok] at loaded
      obtain ⟨_, _, _, ⟨next, rfl⟩, _, rest, _⟩ := loaded
      have small := ih next rest
      omega

/-- What `m_block_deserialize` makes of a raw block. -/
theorem mBlockDeserialize_bytes (raw : RawBlock) (small : raw.txs.length < 2 ^ 31) :
    mBlockDeserialize raw.bytes = .ok { header := raw.header, txs := raw.loadedTxs } := by
  have header : blockHeaderDeserialize (raw.bytes.drop posBlockHeader) = .ok raw.header :=
    raw.blockHeaderDeserialize_bytes
  rw [mBlockDeserialize, header, Run.ok_bind, raw.count]
  cases txs_eq : raw.txs with
  | nil => simp [blockDeserializeTxs, RawBlock.loadedTxs, txs_eq]
  | cons first rest =>
      have inside : 0 < raw.txs.length := by simp [txs_eq]
      have loaded := raw.mTxDeserialize_at inside
      simp only [txs_eq, List.getElem_cons_zero] at loaded
      have all := blockDeserializeTxs_eq raw.bytes (.ofNat posBlockBody) 0 raw.txs.length loaded
        (by omega)
      rw [← txs_eq, all, RawBlock.loadedTxs_of_cons txs_eq]
      rfl

/-- It makes a block of exactly those whose transactions an `int` can count. -/
theorem mBlockDeserialize_eq_ok {raw : RawBlock} {block : Block} :
    mBlockDeserialize raw.bytes = .ok block ↔
      raw.txs.length < 2 ^ 31 ∧ block = { header := raw.header, txs := raw.loadedTxs } := by
  constructor
  · intro loaded
    have whole := loaded
    have header : blockHeaderDeserialize (raw.bytes.drop posBlockHeader) = .ok raw.header :=
      raw.blockHeaderDeserialize_bytes
    rw [mBlockDeserialize, header, Run.ok_bind, raw.count, Run.bind_eq_ok] at whole
    obtain ⟨txs, looped, _⟩ := whole
    have small := small_of_blockDeserializeTxs (by decide) looped
    rw [Nat.zero_add] at small
    rw [mBlockDeserialize_bytes raw small] at loaded
    exact ⟨small, (Except.ok.inj loaded).symm⟩
  · rintro ⟨small, rfl⟩
    exact mBlockDeserialize_bytes raw small

/-! ## The size functions -/

/-- A 32-bit cursor at the offset of a transaction moves to the next offset. -/
theorem RawBlock.cursor_add_size (raw : RawBlock) {i : Nat} (inside : i < raw.txs.length) :
    UInt32.ofNat (raw.offset i) + txComputeSize raw.txs[i] = UInt32.ofNat (raw.offset (i + 1)) := by
  have size := toNat_txComputeSize_of_counted (raw.counted _ (List.getElem_mem inside))
  rw [raw.offset_succ inside, ← size, UInt32.ofNat_add, UInt32.ofNat_toNat]

theorem RawBlock.blockComputeSizeLoop_eq (raw : RawBlock) (i remaining : Nat)
    (inside : i + remaining = raw.txs.length) (small : raw.txs.length < 2 ^ 31) :
    blockComputeSizeLoop raw.txs i remaining (.ofNat (raw.offset i)) =
      .ok (.ofNat (raw.offset raw.txs.length)) := by
  induction remaining generalizing i with
  | zero =>
      rw [← inside]
      rfl
  | succ remaining ih =>
      have within : i < raw.txs.length := by omega
      rw [blockComputeSizeLoop, fetch_of_lt within, Run.ok_bind, intAdd_of_lt (by omega),
        Run.ok_bind, raw.cursor_add_size within]
      exact ih (i + 1) (by omega)

theorem RawBlock.blockRawComputeSizeLoop_eq (raw : RawBlock) (i remaining : Nat)
    (inside : i + remaining = raw.txs.length) (small : raw.offset raw.txs.length < 2 ^ 32) :
    blockRawComputeSizeLoop raw.bytes remaining (.ofNat (raw.offset i)) =
      .ok (.ofNat (raw.offset raw.txs.length)) := by
  induction remaining generalizing i with
  | zero =>
      rw [← inside]
      rfl
  | succ remaining ih =>
      have within : i < raw.txs.length := by omega
      have before := raw.offset_mono (Nat.le_of_lt within)
      rw [blockRawComputeSizeLoop, toNat_ofNat_of_lt (by omega), raw.txRawComputeSize_at within,
        Run.ok_bind, raw.cursor_add_size within]
      exact ih (i + 1) (by omega)

/-! ## The index loop -/

/-- The positions and digests the index loop records for the transactions from `i` on. -/
theorem RawBlock.txindexLoop_eq (raw : RawBlock) (sha256 : List UInt8 → Digest)
    (i remaining : Nat) (inside : i + remaining = raw.txs.length)
    (small : raw.offset (raw.txs.length - 1) < 2 ^ 31) :
    ∃ records, txindexLoop sha256 raw.bytes remaining (.ofNat (raw.offset i)) = .ok records ∧
      records.map Prod.fst = (List.range' i remaining).map raw.offset ∧
      records.map Prod.snd = (raw.txs.drop i).map fun tx => sha256 tx.bytes := by
  induction remaining generalizing i with
  | zero =>
      have nothing : raw.txs.drop i = [] := List.drop_eq_nil_of_le (by omega)
      exact ⟨[], rfl, rfl, by rw [nothing]; rfl⟩
  | succ remaining ih =>
      have within : i < raw.txs.length := by omega
      have before : raw.offset i < 2 ^ 31 :=
        lt_of_le_of_lt (raw.offset_mono (by omega)) small
      have position : intIndex (.ofNat (raw.offset i)) = .ok (raw.offset i) := by
        rw [intIndex, toNat_ofNat_of_lt (by omega), if_pos before]
      obtain ⟨records, rest, positions, digests⟩ := ih (i + 1) (by omega)
      refine ⟨(raw.offset i, sha256 raw.txs[i].bytes) :: records, ?_, ?_, ?_⟩
      · rw [txindexLoop, position, Run.ok_bind, raw.txRawComputeHash_at sha256 within, Run.ok_bind,
          raw.txRawComputeSize_at within, Run.ok_bind, raw.cursor_add_size within, rest]
        rfl
      · simp [positions, List.range'_succ]
      · rw [List.drop_eq_getElem_cons within, List.map_cons, List.map_cons, digests]

theorem RawBlock.txindexRecords_eq (raw : RawBlock) (sha256 : List UInt8 → Digest)
    (small : raw.offset (raw.txs.length - 1) < 2 ^ 31) :
    ∃ records, txindexRecords sha256 raw.bytes = .ok records ∧
      records.map Prod.fst = (List.range raw.txs.length).map raw.offset ∧
      records.map Prod.snd = raw.txs.map fun tx => sha256 tx.bytes := by
  obtain ⟨records, looped, positions, digests⟩ :=
    raw.txindexLoop_eq sha256 0 raw.txs.length (by omega) small
  refine ⟨records, ?_, ?_, ?_⟩
  · rw [txindexRecords, raw.btoui_txCount, Run.ok_bind, raw.count]
    exact looped
  · rw [positions, List.range_eq_range']
  · simpa using digests

/-- Every position the index loop hashes at is one an `int` can hold. -/
theorem txindexLoop_position {sha256 : List UInt8 → Digest} {src : List UInt8} {remaining : Nat}
    {cursor : UInt32} {records : List (Nat × Digest)}
    (looped : txindexLoop sha256 src remaining cursor = .ok records) :
    ∀ record ∈ records, record.1 < 2 ^ 31 := by
  induction remaining generalizing cursor records with
  | zero =>
      obtain rfl := Except.ok.inj looped
      simp
  | succ remaining ih =>
      simp only [txindexLoop, Run.bind_eq_ok, Run.pure_eq_ok, Except.ok.injEq] at looped
      obtain ⟨position, indexed, digest, _, size, _, rest, others, rfl⟩ := looped
      have bounded : position < 2 ^ 31 := by
        rw [intIndex] at indexed
        split at indexed
        · rename_i small
          obtain rfl := Except.ok.inj indexed
          exact small
        · contradiction
      intro record member
      rcases List.mem_cons.mp member with rfl | later
      · exact bounded
      · exact ih others record later

/-! ## Agreement -/

/-- All walkers of a raw block agree on where its transactions are. -/
structure WalkersAgree (sha256 : List UInt8 → Digest) (raw : List UInt8) (block : Block)
    (records : List (Nat × Digest)) (stop : Nat) : Prop where
  deserialized : mBlockDeserialize raw = .ok block
  transaction : ∀ i < block.header.txCount.toNat, ∃ offset tx, txOffset raw i = .ok offset ∧
    mTxDeserialize (raw.drop offset) = .ok tx ∧ block.txs[i]? = some tx
  indexed : txindexRecords sha256 raw = .ok records
  position : ∀ i < block.header.txCount.toNat, ∃ offset, txOffset raw i = .ok offset ∧
    records[i]?.map Prod.fst = some offset
  end_eq : txOffset raw block.header.txCount.toNat = .ok stop
  size : UInt32.toNat <$> blockComputeSize block = .ok stop
  rawSize : UInt32.toNat <$> blockRawComputeSize raw = .ok stop

section Agreement

variable {sha256 : List UInt8 → Digest} {raw : RawBlock} {block : Block}
  {records : List (Nat × Digest)} {stop : Nat}

theorem WalkersAgree.uniform (agree : WalkersAgree sha256 raw.bytes block records stop) :
    raw.Uniform := by
  obtain ⟨_, rfl⟩ := mBlockDeserialize_eq_ok.mp agree.deserialized
  rw [← raw.loadedTxs_eq_iff]
  apply List.ext_getElem raw.length_loadedTxs
  intro i insideLoaded inside
  obtain ⟨offset, tx, offset_eq, loaded, stored⟩ :=
    agree.transaction i (by simpa [raw.count] using inside)
  obtain rfl := Except.ok.inj (offset_eq.symm.trans (raw.txOffset_eq (Nat.le_of_lt inside)))
  rw [raw.mTxDeserialize_at inside] at loaded
  rw [List.getElem?_eq_getElem insideLoaded, Option.some.injEq] at stored
  rw [stored, Except.ok.inj loaded]

theorem WalkersAgree.addressable (agree : WalkersAgree sha256 raw.bytes block records stop) :
    raw.offset (raw.txs.length - 1) < 2 ^ 31 := by
  obtain ⟨_, rfl⟩ := mBlockDeserialize_eq_ok.mp agree.deserialized
  cases Nat.eq_zero_or_pos raw.txs.length with
  | inl empty =>
      rw [empty, raw.offset_zero]
      decide
  | inr nonempty =>
      obtain ⟨offset, offset_eq, position⟩ :=
        agree.position (raw.txs.length - 1) (by simp only [raw.count]; omega)
      obtain rfl := Except.ok.inj (offset_eq.symm.trans (raw.txOffset_eq (by omega)))
      obtain ⟨record, stored, first⟩ := Option.map_eq_some_iff.mp position
      have looped := agree.indexed
      rw [txindexRecords, raw.btoui_txCount, Run.ok_bind] at looped
      rw [← first]
      exact txindexLoop_position looped record (List.mem_of_getElem? stored)

end Agreement

/-- No transaction is longer than 2^25 bytes, so the end of a block is less than that behind the
start of its last transaction. -/
theorem RawBlock.offset_end_lt (raw : RawBlock)
    (small : raw.offset (raw.txs.length - 1) < 2 ^ 31) :
    raw.offset raw.txs.length < 2 ^ 31 + 2 ^ 25 := by
  cases Nat.eq_zero_or_pos raw.txs.length with
  | inl empty =>
      rw [empty, raw.offset_zero]
      decide
  | inr nonempty =>
      have inside : raw.txs.length - 1 < raw.txs.length := by omega
      have last := raw.offset_succ inside
      have counted := raw.counted _ (List.getElem_mem inside)
      have inBound := raw.txs[raw.txs.length - 1].header.inCount.toNat_lt
      have outBound := raw.txs[raw.txs.length - 1].header.outCount.toNat_lt
      rw [Nat.sub_add_cancel nonempty, ← toNat_txComputeSize_of_counted counted,
        toNat_txComputeSize] at last
      omega

/-- The transactions of a block that fits a block buffer can all be addressed. -/
theorem RawBlock.addressable_of_le (raw : RawBlock)
    (small : raw.offset raw.txs.length ≤ maxBlockSize) :
    raw.offset (raw.txs.length - 1) < 2 ^ 31 := by
  have earlier := raw.offset_mono (Nat.sub_le raw.txs.length 1)
  rw [maxBlockSize] at small
  omega

/-- Every transaction in front of an offset takes up some of the bytes there. -/
theorem RawBlock.le_offset (raw : RawBlock) {i : Nat} (inside : i ≤ raw.txs.length) :
    sizeBlockHeader + i ≤ raw.offset i := by
  induction i with
  | zero => exact le_rfl
  | succ i ih =>
      rw [raw.offset_succ inside, Tx.length_bytes]
      have before := ih (by omega)
      omega

/-- A block whose transactions can be addressed has no more of them than an `int` can count. -/
theorem RawBlock.length_txs_lt (raw : RawBlock)
    (small : raw.offset (raw.txs.length - 1) < 2 ^ 31) : raw.txs.length < 2 ^ 31 := by
  have before := raw.le_offset (Nat.sub_le raw.txs.length 1)
  rw [sizeBlockHeader] at before
  omega

/-- The count of a block whose transactions can be addressed is one an `int` can hold. -/
theorem RawBlock.int_txCount (raw : RawBlock)
    (small : raw.offset (raw.txs.length - 1) < 2 ^ 31) :
    raw.header.txCount.toInt32.toInt.toNat = raw.txs.length := by
  have before := raw.le_offset (Nat.sub_le raw.txs.length 1)
  have positive : 2 * raw.header.txCount.toBitVec.toNat < 2 ^ 32 := by
    change 2 * raw.header.txCount.toNat < 2 ^ 32
    rw [raw.count]
    simp only [sizeBlockHeader] at before
    omega
  rw [← raw.count]
  change raw.header.txCount.toBitVec.toInt.toNat = _
  rw [BitVec.toInt_eq_toNat_of_lt positive]
  rfl

theorem RawBlock.blockRawComputeSize_eq (raw : RawBlock)
    (small : raw.offset (raw.txs.length - 1) < 2 ^ 31) :
    blockRawComputeSize raw.bytes = .ok (.ofNat (raw.offset raw.txs.length)) := by
  have behind := raw.offset_end_lt small
  have looped := raw.blockRawComputeSizeLoop_eq 0 raw.txs.length (by omega) (by omega)
  rw [blockRawComputeSize, raw.btoui_txCount, Run.ok_bind, raw.int_txCount small]
  exact looped

/-- The walkers agree exactly on the blocks that repeat one transaction and whose last transaction
starts where an `int` can address it. -/
theorem walkersAgree_iff (sha256 : List UInt8 → Digest) (raw : RawBlock) :
    (∃ block records stop, WalkersAgree sha256 raw.bytes block records stop) ↔
      raw.Uniform ∧ raw.offset (raw.txs.length - 1) < 2 ^ 31 := by
  constructor
  · rintro ⟨block, records, stop, agree⟩
    exact ⟨agree.uniform, agree.addressable⟩
  · rintro ⟨uniform, small⟩
    have behind := raw.offset_end_lt small
    have loaded_eq := raw.loadedTxs_eq_iff.mpr uniform
    obtain ⟨records, indexed, positions, _⟩ := raw.txindexRecords_eq sha256 small
    have count := raw.length_txs_lt small
    refine ⟨_, records, raw.offset raw.txs.length, mBlockDeserialize_bytes raw count, ?_, indexed,
      ?_, ?_, ?_, ?_⟩
    · intro i inside
      rw [raw.count] at inside
      exact ⟨raw.offset i, raw.txs[i], raw.txOffset_eq (Nat.le_of_lt inside),
        raw.mTxDeserialize_at inside, by rw [loaded_eq, List.getElem?_eq_getElem inside]⟩
    · intro i inside
      rw [raw.count] at inside
      refine ⟨raw.offset i, raw.txOffset_eq (Nat.le_of_lt inside), ?_⟩
      rw [← List.getElem?_map, positions]
      simp [inside]
    · rw [raw.count, raw.txOffset_eq le_rfl]
    · have looped := raw.blockComputeSizeLoop_eq 0 raw.txs.length (by omega) count
      rw [blockComputeSize, raw.count, loaded_eq]
      rw [raw.offset_zero] at looped
      rw [looped]
      exact congrArg Except.ok (toNat_ofNat_of_lt (by omega))
    · rw [raw.blockRawComputeSize_eq small]
      exact congrArg Except.ok (toNat_ofNat_of_lt (by omega))

/-- A transaction without inputs and outputs. -/
def emptyTx : Tx where
  header := { version := 2, inCount := 0, outCount := 0, lockTime := 0 }
  ins := []
  outs := []

/-- A block of two transactions that differ in their lock time. -/
def twoTxBlock : RawBlock where
  header :=
    { version := 2, time := 0, height := 0, prevHash := List.Vector.replicate 32 0
      merkleRoot := List.Vector.replicate 32 0, target := { mantissa := 0, exponent := 1 }
      nonce := 0, txCount := 2 }
  txs := [emptyTx, { emptyTx with header := { emptyTx.header with lockTime := 1 } }]
  trailing := []
  count := rfl
  counted := by decide

/-- The deserializer returns the first transaction of that block twice. -/
theorem walkersAgree_twoTxBlock_fails :
    twoTxBlock.header.txCount.toNat < 2 ^ 31 ∧
      ¬ ∃ block records stop, WalkersAgree sha256 twoTxBlock.bytes block records stop := by
  refine ⟨by decide, ?_⟩
  rintro ⟨block, records, stop, agree⟩
  have second := agree.uniform _ (List.mem_cons_of_mem _ (List.mem_singleton.mpr rfl))
  simp [twoTxBlock, emptyTx] at second

end Freecoin
