import Freecoin.Chain
import Freecoin.Merkle

/-!
# Validation

The six validators of `validation.c`.  Local buffers are not initialised by the source, so their
earlier content is an argument.  The two surplus functions are declared but not implemented;
signature verification, which is a library of its own, and the digest are parameters like them.
-/

namespace Freecoin

open Foundation

/-! ## Codes and constants -/

def errBlockBadHash : UInt8 := 1
def errBlockBadVersion : UInt8 := 2
def errBlockBadRoot : UInt8 := 3
def errBlockBadHeight : UInt8 := 4
def errBlockBadTime : UInt8 := 5
def errBlockBadTarget : UInt8 := 6
def errTxBadSurplus : UInt8 := 7
def errTxBadCoinbase : UInt8 := 8
def errTxBadInCount : UInt8 := 9
def errTxOverspend : UInt8 := 10
def errTxBadSig : UInt8 := 11
def errTxDoublespend : UInt8 := 12

def currentVersion : UInt16 := 2
def oneTrueRoot : Digest := List.Vector.replicate 32 0
def miningReward : UInt64 := 20

/-- What the validators call outside the modelled code. -/
structure Primitives where
  sha256 : List UInt8 → Digest
  /-- `ecdsa_verify` on a public key, a 32-byte message and a signature. -/
  ecdsaVerify : Bytes 128 → Bytes 32 → Bytes 128 → Bool
  txComputeSurplus : Tx → UInt32
  txComputeRequiredSurplus : Tx → UInt32

/-! ## Addresses -/

/-- Length of a public key as `secrets.h` has it, half of the field an input carries. -/
def sizeEcdsaPublic : Nat := 64

/-- `crypt_addr`. -/
def cryptAddr (sha256 : List UInt8 → Digest) (pub : Bytes 128) : Digest :=
  sha256 (sha256 (pub.toList.take sizeEcdsaPublic)).toList

/-! ## Transactions on their own -/

/-- The message `validate_tx_input_pseudo` hands to `ecdsa_verify`: the first 32 of the signable
bytes, generated into a fresh allocation. -/
def signableMessage (parent : Tx) (signable : Nat → UInt8) : Run (Bytes 32) := do
  let size := (txComputeSizeSignableHash parent).toNat
  let signableHash ← txGenerateSignableHash parent { size, byte := signable }
  let message ← signableHash.read 0 sizeSha256
  copyOut 32 message

/-- `validate_tx_input_pseudo`. -/
def validateTxInputPseudo (primitives : Primitives) (signable : Nat → UInt8) (input : TxInput)
    (parent : Tx) : Run UInt8 := do
  let message ← signableMessage parent signable
  if ¬ primitives.ecdsaVerify input.pubkey message input.sig then return errTxBadSig
  return 0

/-- `validate_tx_pseudo`. -/
def validateTxPseudo (primitives : Primitives) (signable : Nat → Nat → UInt8) (tx : Tx) :
    Run UInt8 :=
  let txSize := (txComputeSize tx).toUInt64
  if txSize > 1000 ∧ primitives.txComputeSurplus tx < primitives.txComputeRequiredSurplus tx then
    .ok errTxBadSurplus
  else
    checkRange
      (fun i => do
        let input ← fetch tx.ins i
        validateTxInputPseudo primitives (signable i) input tx)
      0 tx.header.inCount.toNat

/-! ## Inputs in their chain -/

/-- Two inputs consume the same output. -/
def TxInput.SameReference (left right : TxInput) : Prop :=
  left.outIndex = right.outIndex ∧ left.refTx = right.refTx

instance (left right : TxInput) : Decidable (left.SameReference right) :=
  inferInstanceAs (Decidable (_ ∧ _))

/-- The inner loop of the scans of `validate_tx_input_chain`.  It counts the inputs of
transaction `t` that consume the output `input` consumes and gives up when there are more than
`limit`.  Its bound is the input count of transaction `i`, not `t`: `bounds` holds the transactions
from index `i` on. -/
def scanInputs (limit : UInt8) (txs : List Tx) (input : TxInput) (t : Nat) :
    (bounds : List Tx) → (i : Nat) → (spends : UInt8) → Run (Option UInt8)
  | [], _, _ => .error .outOfBounds
  | bound :: bounds, i, spends =>
      if i < bound.header.inCount.toNat then do
        let tx ← fetch txs t
        let otherInput ← fetch tx.ins i
        if otherInput.SameReference input then
          if spends + 1 > limit then return none
          scanInputs limit txs input t bounds (i + 1) (spends + 1)
        else
          scanInputs limit txs input t bounds (i + 1) spends
      else
        return some spends

/-- The outer loop of the scans. -/
def scanTxs (limit : UInt8) (txs : List Tx) (input : TxInput) :
    (t remaining : Nat) → (spends : UInt8) → Run (Option UInt8)
  | _, 0, spends => .ok (some spends)
  | t, remaining + 1, spends => do
      match ← scanInputs limit txs input t txs 0 spends with
      | none => return none
      | some spends =>
          let t ← intAdd t 1
          scanTxs limit txs input t remaining spends

/-- The walk of `validate_tx_input_chain` over the ancestors. -/
def ancestorWalk (store : Store) (input : TxInput) :
    (fuel : Nat) → (nextHeight : UInt32) → (nextHash : Digest) → Run UInt8
  | fuel, nextHeight, nextHash =>
      if nextHeight = 0 then .ok 0
      else
        match fuel with
        | 0 => .error .outOfFuel
        | fuel + 1 => do
            match ← store.loadBlock nextHash with
            | none => .error .nullPointer
            | some curr =>
                match ← scanTxs 0 curr.txs input 0 curr.header.txCount.toNat 0 with
                | none => return errTxDoublespend
                | some _ =>
                    ancestorWalk store input fuel (curr.header.height - 1) curr.header.prevHash

/-- `validate_tx_input_chain`. -/
def validateTxInputChain (store : Store) (fuel : Nat) (input : TxInput) (parent : Block) :
    Run UInt8 := do
  match ← scanTxs 1 parent.txs input 0 parent.header.txCount.toNat 0 with
  | none => return errTxDoublespend
  | some _ => ancestorWalk store input fuel (parent.header.height - 1) parent.header.prevHash

/-! ## Transactions in their chain -/

/-- Sum `amount` over the indices `index, …, index + remaining - 1` in 64 bits; the index is an
`int`. -/
def sumAmounts (amount : Nat → Run UInt32) :
    (index remaining : Nat) → (total : UInt64) → Run UInt64
  | _, 0, total => .ok total
  | index, remaining + 1, total => do
      let value ← amount index
      let index ← intAdd index 1
      sumAmounts amount index remaining (total + value.toUInt64)

/-- The sum of the amounts delivered for the inputs.  The record `output` is shared by all
iterations and the result of the lookup is not tested. -/
def sumInputs (store : Store) (tx : Tx) :
    (index remaining : Nat) → (output : TxOutput) → (inputSum : UInt64) → Run UInt64
  | _, 0, _, inputSum => .ok inputSum
  | index, remaining + 1, output, inputSum => do
      let input ← fetch tx.ins index
      let output := (store.loadNthTxOutput input.refTx input.outIndex).getD output
      sumInputs store tx (index + 1) remaining output (inputSum + output.amount.toUInt64)

/-- `validate_tx_chain`. -/
def validateTxChain (primitives : Primitives) (store : Store) (fuel : Nat) (output : TxOutput)
    (tx : Tx) (index : UInt32) (parent : Block) : Run UInt8 :=
  if index = 0 ∧ tx.header.inCount = 0 then do
    let outTotal ← sumAmounts (fun i => TxOutput.amount <$> fetch tx.outs i)
      0 tx.header.outCount.toNat 0
    let blockSurplus ← sumAmounts (fun t => primitives.txComputeSurplus <$> fetch parent.txs t)
      0 parent.header.txCount.toNat 0
    if outTotal > blockSurplus + miningReward then return errTxBadCoinbase
    return 0
  else if tx.header.inCount = 0 then .ok errTxBadInCount
  else do
    let inputSum ← sumInputs store tx 0 tx.header.inCount.toNat output 0
    -- Every iteration adds the amount of the first output.
    let outputSum ← sumAmounts (fun _ => TxOutput.amount <$> fetch tx.outs 0)
      0 tx.header.outCount.toNat 0
    if outputSum > inputSum then return errTxOverspend
    checkRange
      (fun i => do
        let input ← fetch tx.ins i
        validateTxInputChain store fuel input parent)
      0 tx.header.inCount.toNat

/-! ## Blocks on their own -/

/-- What uninitialised memory holds when `validate_block_pseudo` runs: its first hash buffer, the
work buffer of `compute_merkle_root`, and the allocation made for each input of each transaction. -/
structure PseudoLeftovers where
  hashBuffer1 : Digest
  txBuffer : Nat → UInt8
  signable : Nat → Nat → Nat → UInt8

/-- `validate_block_pseudo`. -/
def validateBlockPseudo (primitives : Primitives) (leftovers : PseudoLeftovers) (block : Block) :
    Run UInt8 := do
  let bigTarget ← targetToBtarget block.header.target leftovers.hashBuffer1.toList
  let bigBlockhash := (blockComputeHash primitives.sha256 block).toList
  if (← bigComp bigTarget bigBlockhash) > 0 then return errBlockBadHash
  if block.header.version ≠ currentVersion then return errBlockBadVersion
  let hashBuffer1 ← computeMerkleRoot primitives.sha256 block.txs block.header.txCount
    leftovers.txBuffer
  if hashBuffer1 ≠ block.header.merkleRoot then return errBlockBadRoot
  if block.header.txCount > 0 then
    checkRange
      (fun i => do
        let tx ← fetch block.txs i
        validateTxPseudo primitives (leftovers.signable i) tx)
      0 block.header.txCount.toNat
  else
    return 0

/-! ## Blocks in their chain -/

/-- What uninitialised memory holds when `validate_block_chain` runs: its two hash buffers and the
header record of `chain_compute_next_target`. -/
structure ChainLeftovers where
  hashBuffer1 : Digest
  hashBuffer2 : Digest
  headerA : BlockHeader

/-- The two block objects `validate_block_chain` has at hand: the one it was called with and the
one `m_io_load_block` allocated. -/
inductive BlockObject where
  | block
  | prevBlock
  deriving DecidableEq

/-- `validate_block_chain`. -/
def validateBlockChain (primitives : Primitives) (store : Store) (leftovers : ChainLeftovers)
    (block : Block) : Run UInt8 :=
  if block.header.height = 0 then
    if blockComputeHash primitives.sha256 block ≠ oneTrueRoot then .ok errBlockBadHeight
    else .ok 0
  else do
    match ← store.loadBlock block.header.prevHash with
    | none => .error .nullPointer
    | some prevBlock =>
        if block.header.time ≤ prevBlock.header.time then return errBlockBadTime
        if block.header.height < chainRecalcInterval then
          -- The source compares `block->header.target` with `prev_block->header.target`: two
          -- arrays, which compare by the object they stand in.
          if BlockObject.block ≠ BlockObject.prevBlock then return errBlockBadTarget
          return 0
        else
          -- The next target is written over the first two bytes of the buffer.
          let before : Target :=
            { mantissa := leftovers.hashBuffer1.toList.getD 0 0
              exponent := leftovers.hashBuffer1.toList.getD 1 0 }
          let next ← chainComputeNextTarget store leftovers.headerA block.header before
          let bigTargetTrue :=
            next.mantissa :: next.exponent :: leftovers.hashBuffer1.toList.drop 2
          let bigTargetThis ← targetToBtarget block.header.target leftovers.hashBuffer2.toList
          if bigTargetTrue ≠ bigTargetThis then return errBlockBadTarget
          return 0

/-! ## The miner -/

/-- What `new_workblock` prepares on top of a head, before the loop that calls a `do_mine` which is
not there.  The load of the head's own header is not tested, and the time, the Merkle root and the
transaction count are not set. -/
def newWorkblockHeader (store : Store) (highestHead : Head)
    (highestHeader headerA header : BlockHeader) (nextTarget : Target) : Run BlockHeader := do
  let loaded ← store.loadBlockHeader highestHead.hash
  let highestHeader := loaded.getD highestHeader
  let target ← chainComputeNextTarget store headerA highestHeader nextTarget
  return { header with
    prevHash := highestHead.hash
    target
    height := highestHead.height + 1
    nonce := 0
    version := currentVersion }

end Freecoin
