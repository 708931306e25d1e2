import Freecoin.Bytes

/-!
# Transactions

The transaction structures of `transactions.h` with the record codecs, the size functions, the
whole-transaction serializer and the signable bytes of `transactions.c`.  A `tx_t` holds two
counts in its header and two arrays behind pointers; nothing forces the counts to be the lengths
of the arrays, so the model keeps both and every array access is checked.
-/

namespace Freecoin

open Foundation

/-! ## Structures -/

/-- `tx_header_t`. -/
structure TxHeader where
  version : UInt16
  inCount : UInt16
  outCount : UInt16
  lockTime : UInt32
  deriving DecidableEq, Repr

/-- `tx_input_t`. -/
structure TxInput where
  outIndex : UInt16
  refTx : Bytes 32
  pubkey : Bytes 128
  sig : Bytes 128
  deriving DecidableEq

/-- `tx_output_t`. -/
structure TxOutput where
  outAddr : Bytes 32
  amount : UInt32
  deriving DecidableEq

/-- `tx_t`. -/
structure Tx where
  header : TxHeader
  ins : List TxInput
  outs : List TxOutput
  deriving DecidableEq

/-- The header counts are the lengths of the arrays. -/
structure Tx.Counted (tx : Tx) : Prop where
  ins : tx.header.inCount.toNat = tx.ins.length
  outs : tx.header.outCount.toNat = tx.outs.length

instance (tx : Tx) : Decidable tx.Counted :=
  decidable_of_iff (tx.header.inCount.toNat = tx.ins.length ∧
      tx.header.outCount.toNat = tx.outs.length)
    ⟨fun counts => ⟨counts.1, counts.2⟩, fun counted => ⟨counted.ins, counted.outs⟩⟩

/-! ## Positions and sizes -/

def posTxHeaderVersion : Nat := 0
def posTxHeaderInCount : Nat := 2
def posTxHeaderOutCount : Nat := 4
def posTxHeaderLockTime : Nat := 6
def sizeTxHeader : Nat := 10

def posTxInputOutIndex : Nat := 0
def posTxInputRefTx : Nat := 2
def posTxInputPubkey : Nat := 34
def posTxInputSig : Nat := 162
def sizeTxInput : Nat := 290
def sizeTxInputOutIndex : Nat := 2
def sizeTxInputRefTx : Nat := 32
def sizeTxInputPubkey : Nat := 128
def sizeTxInputSig : Nat := 128

def posTxOutputOutAddr : Nat := 0
def posTxOutputAmount : Nat := 32
def sizeTxOutput : Nat := 36

def posTxHeader : Nat := 0
def posTxBody : Nat := sizeTxHeader

/-- Size of the work buffer a transaction is serialized into. -/
def maxTxSize : Nat := 1048576

/-! ## Record codecs -/

/-- Write a header to `dst[pos..]`. -/
def txHeaderSerialize (src : TxHeader) (dst : Buffer) (pos : Nat) : Run Buffer := do
  let dst ← dst.store (pos + posTxHeaderVersion) (ustob src.version)
  let dst ← dst.store (pos + posTxHeaderInCount) (ustob src.inCount)
  let dst ← dst.store (pos + posTxHeaderOutCount) (ustob src.outCount)
  dst.store (pos + posTxHeaderLockTime) (uitob src.lockTime)

/-- Read the header behind a pointer. -/
def txHeaderDeserialize (src : List UInt8) : Run TxHeader := do
  let version ← btous (src.drop posTxHeaderVersion)
  let inCount ← btous (src.drop posTxHeaderInCount)
  let outCount ← btous (src.drop posTxHeaderOutCount)
  let lockTime ← btoui (src.drop posTxHeaderLockTime)
  return { version, inCount, outCount, lockTime }

/-- Write an input record to `dst[pos..]`. -/
def txInputSerialize (src : TxInput) (dst : Buffer) (pos : Nat) : Run Buffer := do
  let dst ← dst.store (pos + posTxInputOutIndex) (ustob src.outIndex)
  let dst ← dst.store (pos + posTxInputRefTx) src.refTx.toList
  let dst ← dst.store (pos + posTxInputPubkey) src.pubkey.toList
  dst.store (pos + posTxInputSig) src.sig.toList

/-- Read the input record behind a pointer. -/
def txInputDeserialize (src : List UInt8) : Run TxInput := do
  let outIndex ← btous (src.drop posTxInputOutIndex)
  let refTx ← copyOut sizeTxInputRefTx (src.drop posTxInputRefTx)
  let pubkey ← copyOut sizeTxInputPubkey (src.drop posTxInputPubkey)
  let sig ← copyOut sizeTxInputSig (src.drop posTxInputSig)
  return { outIndex, refTx, pubkey, sig }

/-- Write an output record to `dst[pos..]`. -/
def txOutputSerialize (src : TxOutput) (dst : Buffer) (pos : Nat) : Run Buffer := do
  let dst ← dst.store (pos + posTxOutputOutAddr) src.outAddr.toList
  dst.store (pos + posTxOutputAmount) (uitob src.amount)

/-- Read the output record behind a pointer. -/
def txOutputDeserialize (src : List UInt8) : Run TxOutput := do
  let outAddr ← copyOut 32 (src.drop posTxOutputOutAddr)
  let amount ← btoui (src.drop posTxOutputAmount)
  return { outAddr, amount }

/-! ## Whole transactions -/

/-- The bytes of a `tx_input_t` object: the integer member is in host order. -/
def TxInput.object (input : TxInput) : List UInt8 :=
  hostShort input.outIndex ++ input.refTx.toList ++ input.pubkey.toList ++ input.sig.toList

/-- The bytes of a `tx_output_t` object: the integer member is in host order. -/
def TxOutput.object (output : TxOutput) : List UInt8 :=
  output.outAddr.toList ++ hostInt output.amount

/-- The record loops of `tx_serialize`, for a destination pointer `&dst[base]`: each object is
copied to `counter`, and the counter is then multiplied by `stride`. -/
def txSerializeRecords {Record : Type} (records : List Record) (object : Record → List UInt8)
    (stride : UInt32) (base : Nat) :
    (index remaining : Nat) → (counter : UInt32) → (dst : Buffer) → Run (UInt32 × Buffer)
  | _, 0, counter, dst => .ok (counter, dst)
  | index, remaining + 1, counter, dst => do
      let record ← fetch records index
      let dst ← dst.store (base + counter.toNat) (object record)
      txSerializeRecords records object stride base (index + 1) remaining (counter * stride) dst

/-- `tx_serialize(src, &dst[base])`. -/
def txSerialize (src : Tx) (dst : Buffer) (base : Nat) : Run Buffer := do
  let dst ← txHeaderSerialize src.header dst (base + posTxHeader)
  let (counter, dst) ← txSerializeRecords src.ins TxInput.object (.ofNat sizeTxInput) base
    0 src.header.inCount.toNat (.ofNat posTxBody) dst
  let (_, dst) ← txSerializeRecords src.outs TxOutput.object (.ofNat sizeTxOutput) base
    0 src.header.outCount.toNat counter dst
  return dst

/-- A record loop of `m_tx_deserialize`: read `remaining` records of `size` bytes from
`src[cursor]` on, and return the cursor behind them. -/
def txDeserializeRecords {Record : Type} (deserialize : List UInt8 → Run Record) (size : Nat)
    (src : List UInt8) : (remaining : Nat) → (cursor : UInt32) → Run (List Record × UInt32)
  | 0, cursor => .ok ([], cursor)
  | remaining + 1, cursor => do
      let record ← deserialize (src.drop cursor.toNat)
      let (records, cursor) ←
        txDeserializeRecords deserialize size src remaining (cursor + .ofNat size)
      return (record :: records, cursor)

/-- `m_tx_deserialize`. -/
def mTxDeserialize (src : List UInt8) : Run Tx := do
  let header ← txHeaderDeserialize (src.drop posTxHeader)
  let (ins, cursor) ← txDeserializeRecords txInputDeserialize sizeTxInput src
    header.inCount.toNat (.ofNat posTxBody)
  let (outs, _) ← txDeserializeRecords txOutputDeserialize sizeTxOutput src
    header.outCount.toNat cursor
  return { header, ins, outs }

/-! ## Sizes and hashes -/

/-- `tx_compute_size`. -/
def txComputeSize (tx : Tx) : UInt32 :=
  .ofNat sizeTxHeader + tx.header.inCount.toUInt32 * .ofNat sizeTxInput +
    tx.header.outCount.toUInt32 * .ofNat sizeTxOutput

/-- `tx_raw_compute_size`. -/
def txRawComputeSize (tx : List UInt8) : Run UInt32 := do
  let inCount ← btous (tx.drop posTxHeaderInCount)
  let outCount ← btous (tx.drop posTxHeaderOutCount)
  return .ofNat sizeTxInput * inCount.toUInt32 + .ofNat sizeTxOutput * outCount.toUInt32 +
    .ofNat sizeTxHeader

/-- `tx_raw_compute_hash`, for a given digest function. -/
def txRawComputeHash (sha256 : List UInt8 → Digest) (tx : List UInt8) : Run Digest := do
  let size ← txRawComputeSize tx
  let bytes ← readOut size.toNat tx
  return sha256 bytes

/-! ## Signable bytes -/

/-- `tx_compute_size_signable_hash`. -/
def txComputeSizeSignableHash (tx : Tx) : UInt32 :=
  txComputeSize tx - tx.header.inCount.toUInt32 * .ofNat sizeTxInputSig

/-- The input loop of `tx_generate_signable_hash`. -/
def txSignableInputs (tx : Tx) :
    (index remaining : Nat) → (cursor : UInt32) → (dst : Buffer) → Run (UInt32 × Buffer)
  | _, 0, cursor, dst => .ok (cursor, dst)
  | index, remaining + 1, cursor, dst => do
      let input ← fetch tx.ins index
      let dst ← dst.store cursor.toNat (ustob input.outIndex)
      let cursor := cursor + .ofNat sizeTxInputOutIndex
      let dst ← dst.store cursor.toNat input.refTx.toList
      let cursor := cursor + .ofNat sizeTxInputRefTx
      let dst ← dst.store cursor.toNat input.pubkey.toList
      let cursor := cursor + .ofNat sizeTxInputPubkey
      txSignableInputs tx (index + 1) remaining cursor dst

/-- The output loop of `tx_generate_signable_hash`: every iteration serializes `tx->outs`, the
first output. -/
def txSignableOutputs (tx : Tx) :
    (remaining : Nat) → (cursor : UInt32) → (dst : Buffer) → Run Buffer
  | 0, _, dst => .ok dst
  | remaining + 1, cursor, dst => do
      let output ← fetch tx.outs 0
      let dst ← txOutputSerialize output dst cursor.toNat
      txSignableOutputs tx remaining (cursor + .ofNat sizeTxOutput) dst

/-- `tx_generate_signable_hash`: the cursor starts at the header's own position. -/
def txGenerateSignableHash (tx : Tx) (dst : Buffer) : Run Buffer := do
  let dst ← txHeaderSerialize tx.header dst posTxHeader
  let (cursor, dst) ← txSignableInputs tx 0 tx.header.inCount.toNat (.ofNat posTxHeader) dst
  txSignableOutputs tx tx.header.outCount.toNat cursor dst

end Freecoin
