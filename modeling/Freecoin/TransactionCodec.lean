import Freecoin.Foundation.Layout
import Freecoin.Foundation.Records
import Freecoin.Transactions

/-!
# The transaction format

Every record encoder tiles its record without gap or overlap, so each of the three records has an
exact codec; the two counted arrays inherit it, and reading a transaction inverts writing its
records one behind the other.
-/

namespace Freecoin

open Foundation

/-! ## Canonical bytes -/

/-- The ten bytes of a transaction header. -/
def TxHeader.bytes (header : TxHeader) : List UInt8 :=
  ustob header.version ++ ustob header.inCount ++ ustob header.outCount ++ uitob header.lockTime

/-- The 290 bytes of an input record. -/
def TxInput.bytes (input : TxInput) : List UInt8 :=
  ustob input.outIndex ++ input.refTx.toList ++ input.pubkey.toList ++ input.sig.toList

/-- The 36 bytes of an output record. -/
def TxOutput.bytes (output : TxOutput) : List UInt8 :=
  output.outAddr.toList ++ uitob output.amount

@[simp] theorem TxHeader.length_bytes (header : TxHeader) :
    header.bytes.length = sizeTxHeader := rfl

@[simp] theorem TxInput.length_bytes (input : TxInput) : input.bytes.length = sizeTxInput := by
  simp [bytes, sizeTxInput]

@[simp] theorem TxOutput.length_bytes (output : TxOutput) :
    output.bytes.length = sizeTxOutput := by
  simp [bytes, sizeTxOutput]

/-! ## The serializers write the canonical bytes -/

/-- What `tx_header_serialize` writes, in its order. -/
def TxHeader.fields (src : TxHeader) : List Field :=
  [⟨posTxHeaderVersion, ustob src.version⟩, ⟨posTxHeaderInCount, ustob src.inCount⟩,
    ⟨posTxHeaderOutCount, ustob src.outCount⟩, ⟨posTxHeaderLockTime, uitob src.lockTime⟩]

/-- What `tx_input_serialize` writes, in its order. -/
def TxInput.fields (src : TxInput) : List Field :=
  [⟨posTxInputOutIndex, ustob src.outIndex⟩, ⟨posTxInputRefTx, src.refTx.toList⟩,
    ⟨posTxInputPubkey, src.pubkey.toList⟩, ⟨posTxInputSig, src.sig.toList⟩]

/-- What `tx_output_serialize` writes, in its order. -/
def TxOutput.fields (src : TxOutput) : List Field :=
  [⟨posTxOutputOutAddr, src.outAddr.toList⟩, ⟨posTxOutputAmount, uitob src.amount⟩]

theorem TxHeader.tiles_fields (src : TxHeader) : Tiles 0 src.fields sizeTxHeader := by
  simp [fields, Tiles, posTxHeaderVersion, posTxHeaderInCount, posTxHeaderOutCount,
    posTxHeaderLockTime, sizeTxHeader]

theorem TxInput.tiles_fields (src : TxInput) : Tiles 0 src.fields sizeTxInput := by
  simp [fields, Tiles, posTxInputOutIndex, posTxInputRefTx, posTxInputPubkey, posTxInputSig,
    sizeTxInput]

theorem TxOutput.tiles_fields (src : TxOutput) : Tiles 0 src.fields sizeTxOutput := by
  simp [fields, Tiles, posTxOutputOutAddr, posTxOutputAmount, sizeTxOutput]

theorem txHeaderSerialize_eq (src : TxHeader) (dst : Buffer) (pos : Nat)
    (inside : pos + sizeTxHeader ≤ dst.size) :
    txHeaderSerialize src dst pos = .ok (dst.write pos src.bytes) := by
  have stores : txHeaderSerialize src dst pos = storeFields pos src.fields dst := by
    simp only [txHeaderSerialize, TxHeader.fields, storeFields, Run.bind_ok]
  have bytes_eq : src.fields.flatMap Field.bytes = src.bytes := rfl
  rw [stores, src.tiles_fields.storeFields_eq inside, bytes_eq, Nat.add_zero]

theorem txInputSerialize_eq (src : TxInput) (dst : Buffer) (pos : Nat)
    (inside : pos + sizeTxInput ≤ dst.size) :
    txInputSerialize src dst pos = .ok (dst.write pos src.bytes) := by
  have stores : txInputSerialize src dst pos = storeFields pos src.fields dst := by
    simp only [txInputSerialize, TxInput.fields, storeFields, Run.bind_ok]
  have bytes_eq : src.fields.flatMap Field.bytes = src.bytes := by
    simp [TxInput.fields, TxInput.bytes]
  rw [stores, src.tiles_fields.storeFields_eq inside, bytes_eq, Nat.add_zero]

theorem txOutputSerialize_eq (src : TxOutput) (dst : Buffer) (pos : Nat)
    (inside : pos + sizeTxOutput ≤ dst.size) :
    txOutputSerialize src dst pos = .ok (dst.write pos src.bytes) := by
  have stores : txOutputSerialize src dst pos = storeFields pos src.fields dst := by
    simp only [txOutputSerialize, TxOutput.fields, storeFields, Run.bind_ok]
  have bytes_eq : src.fields.flatMap Field.bytes = src.bytes := by
    simp [TxOutput.fields, TxOutput.bytes]
  rw [stores, src.tiles_fields.storeFields_eq inside, bytes_eq, Nat.add_zero]

/-! ## Exact record codecs -/

theorem txHeaderDeserialize_bytes (header : TxHeader) (rest : List UInt8) :
    txHeaderDeserialize (header.bytes ++ rest) = .ok header := by
  have version : (header.bytes ++ rest).drop posTxHeaderVersion = ustob header.version ++
      (ustob header.inCount ++ (ustob header.outCount ++ (uitob header.lockTime ++ rest))) := rfl
  have inCount : (header.bytes ++ rest).drop posTxHeaderInCount = ustob header.inCount ++
      (ustob header.outCount ++ (uitob header.lockTime ++ rest)) := rfl
  have outCount : (header.bytes ++ rest).drop posTxHeaderOutCount = ustob header.outCount ++
      (uitob header.lockTime ++ rest) := rfl
  have lockTime : (header.bytes ++ rest).drop posTxHeaderLockTime =
      uitob header.lockTime ++ rest := rfl
  simp [txHeaderDeserialize, version, inCount, outCount, lockTime]

theorem bytes_of_txHeaderDeserialize {src : List UInt8} {header : TxHeader}
    (loaded : txHeaderDeserialize src = .ok header) : ∃ rest, src = header.bytes ++ rest := by
  simp only [txHeaderDeserialize, Run.bind_eq_ok, Run.pure_eq_ok, Except.ok.injEq] at loaded
  obtain ⟨version, versionRead, inCount, inRead, outCount, outRead, lockTime, lockRead, rfl⟩ :=
    loaded
  have split₀ : src = ustob version ++ src.drop 2 := ustob_of_btous versionRead
  have split₂ : src.drop 2 = ustob inCount ++ src.drop 4 := by
    simpa [posTxHeaderInCount] using ustob_of_btous inRead
  have split₄ : src.drop 4 = ustob outCount ++ src.drop 6 := by
    simpa [posTxHeaderOutCount] using ustob_of_btous outRead
  have split₆ : src.drop 6 = uitob lockTime ++ src.drop 10 := by
    simpa [posTxHeaderLockTime] using uitob_of_btoui lockRead
  refine ⟨src.drop 10, ?_⟩
  calc
    src = ustob version ++ (ustob inCount ++ (ustob outCount ++ (uitob lockTime ++
        src.drop 10))) := by rw [← split₆, ← split₄, ← split₂, ← split₀]
    _ = _ := by simp [TxHeader.bytes]

theorem txHeaderDeserialize_total (src : List UInt8) (long : sizeTxHeader ≤ src.length) :
    ∃ header, txHeaderDeserialize src = .ok header := by
  simp only [sizeTxHeader] at long
  obtain ⟨version, versionRead⟩ := exists_btous (src.drop posTxHeaderVersion) (by
    simp [posTxHeaderVersion]; omega)
  obtain ⟨inCount, inRead⟩ := exists_btous (src.drop posTxHeaderInCount) (by
    simp [posTxHeaderInCount]; omega)
  obtain ⟨outCount, outRead⟩ := exists_btous (src.drop posTxHeaderOutCount) (by
    simp [posTxHeaderOutCount]; omega)
  obtain ⟨lockTime, lockRead⟩ := exists_btoui (src.drop posTxHeaderLockTime) (by
    simp [posTxHeaderLockTime]; omega)
  exact ⟨⟨version, inCount, outCount, lockTime⟩, by
    simp [txHeaderDeserialize, versionRead, inRead, outRead, lockRead]⟩

theorem txInputDeserialize_bytes (input : TxInput) (rest : List UInt8) :
    txInputDeserialize (input.bytes ++ rest) = .ok input := by
  have whole : input.bytes ++ rest = ustob input.outIndex ++
      (input.refTx.toList ++ (input.pubkey.toList ++ (input.sig.toList ++ rest))) := by
    simp [TxInput.bytes]
  have refTx : (input.bytes ++ rest).drop 2 =
      input.refTx.toList ++ (input.pubkey.toList ++ (input.sig.toList ++ rest)) := by
    rw [whole]
    rfl
  have pubkey : (input.bytes ++ rest).drop 34 =
      input.pubkey.toList ++ (input.sig.toList ++ rest) := by
    rw [show 34 = 2 + 32 from rfl, ← List.drop_drop, refTx]
    exact List.drop_left' input.refTx.toList_length
  have sig : (input.bytes ++ rest).drop 162 = input.sig.toList ++ rest := by
    rw [show 162 = 34 + 128 from rfl, ← List.drop_drop, pubkey]
    exact List.drop_left' input.pubkey.toList_length
  simp only [txInputDeserialize, posTxInputOutIndex, posTxInputRefTx, posTxInputPubkey,
    posTxInputSig, sizeTxInputRefTx, sizeTxInputPubkey, sizeTxInputSig, List.drop_zero,
    refTx, pubkey, sig, copyOut_append, Run.ok_bind, Run.pure_eq_ok]
  rw [whole, btous_ustob, Run.ok_bind]

theorem bytes_of_txInputDeserialize {src : List UInt8} {input : TxInput}
    (loaded : txInputDeserialize src = .ok input) : ∃ rest, src = input.bytes ++ rest := by
  simp only [txInputDeserialize, Run.bind_eq_ok, Run.pure_eq_ok, Except.ok.injEq] at loaded
  obtain ⟨outIndex, indexRead, refTx, refRead, pubkey, keyRead, sig, sigRead, rfl⟩ := loaded
  have split₀ : src = ustob outIndex ++ src.drop 2 := ustob_of_btous indexRead
  have split₂ : src.drop 2 = refTx.toList ++ src.drop 34 := by
    simpa [posTxInputRefTx, sizeTxInputRefTx] using copyOut_split refRead
  have split₃₄ : src.drop 34 = pubkey.toList ++ src.drop 162 := by
    simpa [posTxInputPubkey, sizeTxInputPubkey] using copyOut_split keyRead
  have split₁₆₂ : src.drop 162 = sig.toList ++ src.drop 290 := by
    simpa [posTxInputSig, sizeTxInputSig] using copyOut_split sigRead
  refine ⟨src.drop 290, ?_⟩
  calc
    src = ustob outIndex ++ (refTx.toList ++ (pubkey.toList ++ (sig.toList ++
        src.drop 290))) := by rw [← split₁₆₂, ← split₃₄, ← split₂, ← split₀]
    _ = _ := by
      simp only [TxInput.bytes, List.append_assoc]
      rfl

theorem txInputDeserialize_total (src : List UInt8) (long : sizeTxInput ≤ src.length) :
    ∃ input, txInputDeserialize src = .ok input := by
  simp only [sizeTxInput] at long
  obtain ⟨outIndex, indexRead⟩ := exists_btous (src.drop posTxInputOutIndex) (by
    simp [posTxInputOutIndex]; omega)
  obtain ⟨refTx, refRead⟩ := exists_copyOut sizeTxInputRefTx
    (src.drop posTxInputRefTx) (by simp [posTxInputRefTx, sizeTxInputRefTx]; omega)
  obtain ⟨pubkey, keyRead⟩ := exists_copyOut sizeTxInputPubkey
    (src.drop posTxInputPubkey) (by simp [posTxInputPubkey, sizeTxInputPubkey]; omega)
  obtain ⟨sig, sigRead⟩ := exists_copyOut sizeTxInputSig
    (src.drop posTxInputSig) (by simp [posTxInputSig, sizeTxInputSig]; omega)
  exact ⟨⟨outIndex, refTx, pubkey, sig⟩, by
    simp [txInputDeserialize, indexRead, refRead, keyRead, sigRead]⟩

theorem txOutputDeserialize_bytes (output : TxOutput) (rest : List UInt8) :
    txOutputDeserialize (output.bytes ++ rest) = .ok output := by
  have whole : output.bytes ++ rest =
      output.outAddr.toList ++ (uitob output.amount ++ rest) := by
    simp [TxOutput.bytes]
  have amount : (output.bytes ++ rest).drop 32 = uitob output.amount ++ rest := by
    rw [whole]
    exact List.drop_left' output.outAddr.toList_length
  simp only [txOutputDeserialize, posTxOutputOutAddr, posTxOutputAmount, List.drop_zero, amount,
    btoui_uitob, Run.ok_bind, Run.pure_eq_ok]
  rw [whole, copyOut_append, Run.ok_bind]

theorem bytes_of_txOutputDeserialize {src : List UInt8} {output : TxOutput}
    (loaded : txOutputDeserialize src = .ok output) : ∃ rest, src = output.bytes ++ rest := by
  simp only [txOutputDeserialize, Run.bind_eq_ok, Run.pure_eq_ok, Except.ok.injEq] at loaded
  obtain ⟨outAddr, addrRead, amount, amountRead, rfl⟩ := loaded
  have split₀ : src = outAddr.toList ++ src.drop 32 := copyOut_split addrRead
  have split₃₂ : src.drop 32 = uitob amount ++ src.drop 36 := by
    simpa [posTxOutputAmount] using uitob_of_btoui amountRead
  refine ⟨src.drop 36, ?_⟩
  calc
    src = outAddr.toList ++ (uitob amount ++ src.drop 36) := by rw [← split₃₂, ← split₀]
    _ = _ := by simp [TxOutput.bytes]

theorem txOutputDeserialize_total (src : List UInt8) (long : sizeTxOutput ≤ src.length) :
    ∃ output, txOutputDeserialize src = .ok output := by
  simp only [sizeTxOutput] at long
  obtain ⟨outAddr, addrRead⟩ := exists_copyOut 32
    (src.drop posTxOutputOutAddr) (by simp [posTxOutputOutAddr]; omega)
  obtain ⟨amount, amountRead⟩ := exists_btoui (src.drop posTxOutputAmount) (by
    simp [posTxOutputAmount]; omega)
  exact ⟨⟨outAddr, amount⟩, by simp [txOutputDeserialize, addrRead, amountRead]⟩

/-- Input records as an exact codec. -/
def txInputCodec : RecordCodec TxInput where
  size := sizeTxInput
  encode := TxInput.bytes
  decode := txInputDeserialize
  length_encode := TxInput.length_bytes
  decode_encode := txInputDeserialize_bytes
  encode_of_decode := bytes_of_txInputDeserialize
  decode_total := txInputDeserialize_total

/-- Output records as an exact codec. -/
def txOutputCodec : RecordCodec TxOutput where
  size := sizeTxOutput
  encode := TxOutput.bytes
  decode := txOutputDeserialize
  length_encode := TxOutput.length_bytes
  decode_encode := txOutputDeserialize_bytes
  encode_of_decode := bytes_of_txOutputDeserialize
  decode_total := txOutputDeserialize_total

/-! ## Whole transactions -/

/-- The canonical encoding of a transaction: its header, its inputs, then its outputs. -/
def Tx.bytes (tx : Tx) : List UInt8 :=
  tx.header.bytes ++ (txInputCodec.encodeAll tx.ins ++ txOutputCodec.encodeAll tx.outs)

theorem Tx.length_bytes (tx : Tx) :
    tx.bytes.length = 10 + tx.ins.length * 290 + tx.outs.length * 36 := by
  simp [bytes, txInputCodec, txOutputCodec, sizeTxHeader, sizeTxInput, sizeTxOutput]
  omega

/-- The 32-bit cursor of a record loop never wraps inside a transaction, so the loop reads the
records one behind the other. -/
theorem txDeserializeRecords_eq {Record : Type} (codec : RecordCodec Record) (src : List UInt8)
    (count : Nat) (cursor : UInt32) (fits : cursor.toNat + count * codec.size < 2 ^ 32) :
    txDeserializeRecords codec.decode codec.size src count cursor = do
      let records ← codec.decodeAll count (src.drop cursor.toNat)
      return (records, UInt32.ofNat (cursor.toNat + count * codec.size)) := by
  induction count generalizing cursor with
  | zero => simp [txDeserializeRecords, RecordCodec.decodeAll]
  | succ count ih =>
      have split : (count + 1) * codec.size = codec.size + count * codec.size := by ring
      have advanced : (cursor + UInt32.ofNat codec.size).toNat = cursor.toNat + codec.size := by
        rw [UInt32.toNat_add, toNat_ofNat_of_lt (by omega), Nat.mod_eq_of_lt (by omega)]
      have rest := ih (cursor + .ofNat codec.size) (by omega)
      rw [advanced] at rest
      simp only [txDeserializeRecords, rest, RecordCodec.decodeAll, List.drop_drop, bind_assoc,
        Run.pure_eq_ok, Run.ok_bind, split, ← Nat.add_assoc]

/-- `m_tx_deserialize` without its cursor. -/
theorem mTxDeserialize_eq (src : List UInt8) :
    mTxDeserialize src = do
      let header ← txHeaderDeserialize src
      let ins ← txInputCodec.decodeAll header.inCount.toNat (src.drop 10)
      let outs ← txOutputCodec.decodeAll header.outCount.toNat
        (src.drop (10 + header.inCount.toNat * 290))
      return { header, ins, outs } := by
  simp only [mTxDeserialize, posTxHeader, List.drop_zero]
  congr 1
  funext header
  have inBound := header.inCount.toNat_lt
  have outBound := header.outCount.toNat_lt
  have inputs : txDeserializeRecords txInputDeserialize sizeTxInput src header.inCount.toNat
      (.ofNat posTxBody) = do
        let records ← txInputCodec.decodeAll header.inCount.toNat (src.drop 10)
        return (records, UInt32.ofNat (10 + header.inCount.toNat * 290)) :=
    txDeserializeRecords_eq txInputCodec src header.inCount.toNat (.ofNat posTxBody) (by
      change 10 + header.inCount.toNat * 290 < 2 ^ 32
      omega)
  have cursor : (UInt32.ofNat (10 + header.inCount.toNat * 290)).toNat =
      10 + header.inCount.toNat * 290 := toNat_ofNat_of_lt (by omega)
  have outputs := txDeserializeRecords_eq txOutputCodec src header.outCount.toNat
    (.ofNat (10 + header.inCount.toNat * 290)) (by
      rw [cursor]
      change _ + header.outCount.toNat * 36 < 2 ^ 32
      omega)
  rw [cursor] at outputs
  simp only [inputs, bind_assoc, Run.pure_eq_ok, Run.ok_bind]
  congr 1
  funext ins
  rw [show txDeserializeRecords txOutputDeserialize sizeTxOutput = txDeserializeRecords
    txOutputCodec.decode txOutputCodec.size from rfl, outputs]
  simp only [bind_assoc, Run.pure_eq_ok, Run.ok_bind]

/-- Reading back the canonical encoding of a transaction, whatever follows it. -/
theorem mTxDeserialize_bytes {tx : Tx} (counted : tx.Counted) (rest : List UInt8) :
    mTxDeserialize (tx.bytes ++ rest) = .ok tx := by
  have whole : tx.bytes ++ rest = tx.header.bytes ++ (txInputCodec.encodeAll tx.ins ++
      (txOutputCodec.encodeAll tx.outs ++ rest)) := by
    simp [Tx.bytes]
  have body : (tx.bytes ++ rest).drop 10 = txInputCodec.encodeAll tx.ins ++
      (txOutputCodec.encodeAll tx.outs ++ rest) := by
    rw [whole]
    exact List.drop_left' tx.header.length_bytes
  have outputs : (tx.bytes ++ rest).drop (10 + tx.ins.length * 290) =
      txOutputCodec.encodeAll tx.outs ++ rest := by
    rw [← List.drop_drop, body]
    exact List.drop_left' (txInputCodec.length_encodeAll tx.ins)
  rw [mTxDeserialize_eq, whole, txHeaderDeserialize_bytes, Run.ok_bind, ← whole, body,
    counted.ins, outputs, counted.outs, RecordCodec.decodeAll_encodeAll, Run.ok_bind,
    RecordCodec.decodeAll_encodeAll]
  rfl

/-- Whatever `m_tx_deserialize` returns is counted, and is encoded by the bytes it read. -/
theorem bytes_of_mTxDeserialize {src : List UInt8} {tx : Tx}
    (loaded : mTxDeserialize src = .ok tx) :
    tx.Counted ∧ ∃ rest, src = tx.bytes ++ rest := by
  simp only [mTxDeserialize_eq, Run.bind_eq_ok, Run.pure_eq_ok, Except.ok.injEq] at loaded
  obtain ⟨header, headerRead, ins, insRead, outs, outsRead, rfl⟩ := loaded
  obtain ⟨afterHeader, rfl⟩ := bytes_of_txHeaderDeserialize headerRead
  have headerSize : header.bytes.length = 10 := header.length_bytes
  rw [List.drop_left' headerSize] at insRead
  rw [← List.drop_drop, List.drop_left' headerSize] at outsRead
  obtain ⟨insLength, afterIns, rfl⟩ := txInputCodec.encodeAll_of_decodeAll insRead
  have inputSize : (txInputCodec.encodeAll ins).length = header.inCount.toNat * 290 := by
    rw [RecordCodec.length_encodeAll, insLength]
    rfl
  rw [List.drop_left' inputSize] at outsRead
  obtain ⟨outsLength, afterOuts, rfl⟩ := txOutputCodec.encodeAll_of_decodeAll outsRead
  exact ⟨⟨insLength.symm, outsLength.symm⟩, afterOuts, by simp [Tx.bytes]⟩

/-! ## Sizes -/

theorem toNat_txComputeSize (tx : Tx) :
    (txComputeSize tx).toNat =
      10 + tx.header.inCount.toNat * 290 + tx.header.outCount.toNat * 36 := by
  have inBound := tx.header.inCount.toNat_lt
  have outBound := tx.header.outCount.toNat_lt
  have headerSize : (UInt32.ofNat sizeTxHeader).toNat = 10 := rfl
  have inputSize : (UInt32.ofNat sizeTxInput).toNat = 290 := rfl
  have outputSize : (UInt32.ofNat sizeTxOutput).toNat = 36 := rfl
  simp only [txComputeSize, UInt32.toNat_add, UInt32.toNat_mul, UInt16.toNat_toUInt32,
    headerSize, inputSize, outputSize]
  omega

/-- The computed size of a counted transaction is the length of its canonical encoding. -/
theorem toNat_txComputeSize_of_counted {tx : Tx} (counted : tx.Counted) :
    (txComputeSize tx).toNat = tx.bytes.length := by
  rw [toNat_txComputeSize, Tx.length_bytes, counted.ins, counted.outs]

/-- The raw size only reads the two counts of the header. -/
theorem txRawComputeSize_of_header {src : List UInt8} {header : TxHeader}
    (loaded : txHeaderDeserialize src = .ok header) (ins : List TxInput) (outs : List TxOutput) :
    txRawComputeSize src = .ok (txComputeSize { header, ins, outs }) := by
  simp only [txHeaderDeserialize, Run.bind_eq_ok, Run.pure_eq_ok, Except.ok.injEq] at loaded
  obtain ⟨version, _, inCount, inRead, outCount, outRead, lockTime, _, rfl⟩ := loaded
  simp only [txRawComputeSize, inRead, outRead, Run.ok_bind, Run.pure_eq_ok, txComputeSize,
    Except.ok.injEq]
  ac_rfl

theorem txRawComputeSize_bytes {tx : Tx} (rest : List UInt8) :
    txRawComputeSize (tx.bytes ++ rest) = .ok (txComputeSize tx) := by
  have header : txHeaderDeserialize (tx.bytes ++ rest) = .ok tx.header := by
    rw [Tx.bytes, List.append_assoc]
    exact txHeaderDeserialize_bytes _ _
  exact txRawComputeSize_of_header header tx.ins tx.outs

/-- A source as long as its raw size says is read without fault. -/
theorem mTxDeserialize_total {src : List UInt8} {size : UInt32} (long : sizeTxHeader ≤ src.length)
    (sized : txRawComputeSize src = .ok size) (inside : size.toNat ≤ src.length) :
    ∃ tx, mTxDeserialize src = .ok tx ∧ txComputeSize tx = size := by
  obtain ⟨header, headerRead⟩ := txHeaderDeserialize_total src long
  have size_eq : txComputeSize { header, ins := [], outs := [] } = size :=
    Except.ok.inj ((txRawComputeSize_of_header headerRead [] []).symm.trans sized)
  rw [← size_eq, toNat_txComputeSize] at inside
  simp only at inside
  obtain ⟨ins, insRead⟩ := txInputCodec.decodeAll_total header.inCount.toNat
    (src.drop 10) (by
      simp only [List.length_drop, txInputCodec, sizeTxInput]
      omega)
  obtain ⟨outs, outsRead⟩ := txOutputCodec.decodeAll_total header.outCount.toNat
    (src.drop (10 + header.inCount.toNat * 290)) (by
      simp only [List.length_drop, txOutputCodec, sizeTxOutput]
      omega)
  exact ⟨{ header, ins, outs }, by simp [mTxDeserialize_eq, headerRead, insRead, outsRead],
    size_eq⟩

/-! ## The record encoders in sequence -/

/-- Run a record serializer over an array, each record `size` bytes behind the one before. -/
def serializeRecords {Record : Type} (serialize : Record → Buffer → Nat → Run Buffer)
    (size : Nat) : List Record → Buffer → Nat → Run Buffer
  | [], dst, _ => .ok dst
  | record :: records, dst, pos => do
      let dst ← serialize record dst pos
      serializeRecords serialize size records dst (pos + size)

/-- The header encoder, then the input encoder on every input, then the output encoder on every
output, at consecutive positions of `dst`. -/
def txEncodeRecords (tx : Tx) (dst : Buffer) : Run Buffer := do
  let dst ← txHeaderSerialize tx.header dst posTxHeader
  let dst ← serializeRecords txInputSerialize sizeTxInput tx.ins dst posTxBody
  serializeRecords txOutputSerialize sizeTxOutput tx.outs dst
    (posTxBody + tx.ins.length * sizeTxInput)

private theorem serializeRecords_eq {Record : Type} (codec : RecordCodec Record)
    {serialize : Record → Buffer → Nat → Run Buffer}
    (writes : ∀ record dst pos, pos + codec.size ≤ dst.size →
      serialize record dst pos = .ok (dst.write pos (codec.encode record)))
    (records : List Record) (dst : Buffer) {start pos : Nat} {front : List UInt8}
    (adjacent : pos = start + front.length)
    (inside : pos + records.length * codec.size ≤ dst.size) :
    serializeRecords serialize codec.size records (dst.write start front) pos =
      .ok (dst.write start (front ++ codec.encodeAll records)) := by
  induction records generalizing front pos with
  | nil => simp [serializeRecords]
  | cons record records ih =>
      have split : (records.length + 1) * codec.size =
          codec.size + records.length * codec.size := by ring
      rw [List.length_cons, split] at inside
      have first := writes record (dst.write start front) pos (by
        rw [Buffer.size_write]
        omega)
      rw [Buffer.write_append _ _ _ adjacent] at first
      rw [serializeRecords, first, Run.ok_bind,
        ih (by rw [List.length_append, codec.length_encode]; omega) (by omega)]
      simp [List.append_assoc]

/-- The encoders in sequence write the canonical encoding, over any prior content. -/
theorem txEncodeRecords_eq {tx : Tx} {dst : Buffer} (inside : tx.bytes.length ≤ dst.size) :
    txEncodeRecords tx dst = .ok (dst.write 0 tx.bytes) := by
  rw [Tx.length_bytes] at inside
  have header := txHeaderSerialize_eq tx.header dst posTxHeader (by
    simp only [posTxHeader, sizeTxHeader]
    omega)
  have outStart : posTxBody + tx.ins.length * sizeTxInput =
      posTxHeader + (tx.header.bytes ++ txInputCodec.encodeAll tx.ins).length := by
    rw [List.length_append, RecordCodec.length_encodeAll]
    change 10 + tx.ins.length * 290 = 0 + (10 + tx.ins.length * 290)
    omega
  have bodyStart : posTxBody = posTxHeader + tx.header.bytes.length := rfl
  have inputs := serializeRecords_eq txInputCodec txInputSerialize_eq tx.ins dst bodyStart (by
    change 10 + tx.ins.length * 290 ≤ dst.size
    omega)
  have outputs := serializeRecords_eq txOutputCodec txOutputSerialize_eq tx.outs dst outStart (by
    change 10 + tx.ins.length * 290 + tx.outs.length * 36 ≤ dst.size
    omega)
  rw [txEncodeRecords, header, Run.ok_bind]
  change serializeRecords txInputSerialize sizeTxInput tx.ins _ posTxBody >>= _ = _
  rw [show sizeTxInput = txInputCodec.size from rfl, inputs, Run.ok_bind]
  refine outputs.trans ?_
  rw [Tx.bytes, List.append_assoc]
  rfl

/-- Reading a transaction and writing its records one behind the other are inverse: every counted
transaction is read back from its records, and every byte string long enough for the transaction
it announces is rewritten, byte for byte, from the transaction read from it. -/
theorem mTxDeserialize_txEncodeRecords_bijective :
    (∀ (tx : Tx) (dst : Buffer), tx.Counted → (txComputeSize tx).toNat ≤ dst.size →
      ∃ after, txEncodeRecords tx dst = .ok after ∧
        mTxDeserialize (after.window 0 after.size) = .ok tx) ∧
    (∀ (s : List UInt8) (size : UInt32), sizeTxHeader ≤ s.length →
      txRawComputeSize s = .ok size → size.toNat ≤ s.length →
      ∃ tx, mTxDeserialize s = .ok tx ∧ tx.Counted ∧
        ∀ dst : Buffer, size.toNat ≤ dst.size →
          ∃ after, txEncodeRecords tx dst = .ok after ∧
            after.window 0 size.toNat = s.take size.toNat) := by
  constructor
  · intro tx dst counted inside
    rw [toNat_txComputeSize_of_counted counted] at inside
    refine ⟨_, txEncodeRecords_eq inside, ?_⟩
    obtain ⟨spare, size_eq⟩ := Nat.exists_eq_add_of_le inside
    rw [Buffer.size_write, size_eq, Buffer.window_append, Buffer.window_write_self]
    exact mTxDeserialize_bytes counted _
  · intro s size long sized inside
    obtain ⟨tx, loaded, size_eq⟩ := mTxDeserialize_total long sized inside
    obtain ⟨counted, rest, rfl⟩ := bytes_of_mTxDeserialize loaded
    rw [← size_eq, toNat_txComputeSize_of_counted counted]
    refine ⟨tx, loaded, counted, fun dst fits => ⟨_, txEncodeRecords_eq fits, ?_⟩⟩
    rw [Buffer.window_write_self, List.take_left]

end Freecoin
