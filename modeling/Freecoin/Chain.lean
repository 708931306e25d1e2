import Freecoin.Io

/-!
# The chain

Retargeting, head maintenance and saving of `chain.c` and `io.c`.  The backward walks follow
previous hashes through stored headers and are bounded only by the chain itself, so the model
gives them a budget: a run returns when some budget is enough.
-/

namespace Freecoin

open Foundation

/-! ## Retargeting -/

def chainRecalcInterval : UInt32 := 144
def secondsInHalfWeek : UInt32 := 5040
def secondsIn8Weeks : UInt32 := 80640

/-- The time difference of a retarget, bounded on both sides. -/
def clampDiff (diff : UInt32) : UInt32 :=
  if diff > secondsIn8Weeks then secondsIn8Weeks
  else if diff < secondsInHalfWeek then secondsInHalfWeek
  else diff

/-- `chain_compute_next_target`.  `headerA` and `nextTarget` are what the two destinations hold
beforehand: the result of loading the earlier header is not tested, and one path assigns nothing
to `next_target`. -/
def chainComputeNextTarget (store : Store) (headerA : BlockHeader) (headerB : BlockHeader)
    (nextTarget : Target) : Run Target :=
  if headerB.height < chainRecalcInterval then
    .ok headerB.target
  else if headerB.height % chainRecalcInterval = 0 then do
    let hashBuffer1 := store.blockAtHeight (headerB.height - chainRecalcInterval).toUInt64
    let loaded ← store.loadBlockHeader hashBuffer1
    let headerA := loaded.getD headerA
    let diff := clampDiff (headerB.time - headerA.time)
    -- The target byte is set in a buffer that still holds the hash of the earlier block.
    let bignum1 ← targetToBtarget headerB.target hashBuffer1.toList
    let bignum2 ← bigUitobig diff (List.replicate 32 0)
    let bignum3 ← bigMult bignum1 bignum2 (List.replicate 32 0)
    let bignum1 ← bigDiv bignum3 2 bignum1
    btargetToTarget bignum1 nextTarget
  else
    .ok nextTarget

/-! ## Heads -/

/-- The walk of `enchain_block` backward from one head: the headers it loads, each with the hash it
was loaded for, and whether it meets `blockHash`. -/
def enchainWalkLoads (disk : Disk) (blockHash : Digest) :
    (fuel : Nat) → (hash : Digest) → Run (List (Digest × BlockHeader) × Bool)
  | 0, _ => .error .outOfFuel
  | fuel + 1, hash => do
      match ← ioLoadBlockHeader disk hash with
      | none => .ok ([], false)
      | some header =>
          if hash = blockHash then .ok ([(hash, header)], true)
          else if header.height = 0 then .ok ([(hash, header)], false)
          else do
            let (loads, met) ← enchainWalkLoads disk blockHash fuel header.prevHash
            return ((hash, header) :: loads, met)

/-- What `enchain_block` learns from that walk. -/
def enchainWalk (disk : Disk) (blockHash : Digest) (fuel : Nat) (hash : Digest) : Run Bool := do
  let (_, met) ← enchainWalkLoads disk blockHash fuel hash
  return met

/-- The walks of `enchain_block` from each head in turn. -/
def enchainWalks (disk : Disk) (blockHash : Digest) (fuel : Nat) : List Head → Run Bool
  | [] => .ok false
  | head :: heads => do
      if ← enchainWalk disk blockHash fuel head.hash then .ok true
      else enchainWalks disk blockHash fuel heads

/-- The walk of `chain_clean` backward from head `i`, deleting every other head it meets, with the
headers it loads.  `heads` is the copy loaded before the walks. -/
def chainCleanWalkLoads (heads : List Head) (i : Nat) :
    (fuel : Nat) → (hash : Digest) → (disk : Disk) → Run (List (Digest × BlockHeader) × Disk)
  | 0, _, _ => .error .outOfFuel
  | fuel + 1, hash, disk => do
      match ← ioLoadBlockHeader disk hash with
      | none => .ok ([], disk)
      | some header =>
          let disk := heads.zipIdx.foldl
            (fun disk (head, k) =>
              if k ≠ i ∧ hash = head.hash then ioHeadDelete disk hash else disk) disk
          if header.height = 0 then .ok ([(hash, header)], disk)
          else do
            let (loads, disk) ← chainCleanWalkLoads heads i fuel header.prevHash disk
            return ((hash, header) :: loads, disk)

/-- What that walk leaves. -/
def chainCleanWalk (heads : List Head) (i : Nat) (fuel : Nat) (hash : Digest) (disk : Disk) :
    Run Disk := do
  let (_, disk) ← chainCleanWalkLoads heads i fuel hash disk
  return disk

/-- The walks of `chain_clean` from each head in turn. -/
def chainCleanWalks (heads : List Head) (fuel : Nat) :
    List (Head × Nat) → (disk : Disk) → Run Disk
  | [], disk => .ok disk
  | (head, i) :: rest, disk => do
      let disk ← chainCleanWalk heads i fuel head.hash disk
      chainCleanWalks heads fuel rest disk

/-- `chain_clean`. -/
def chainClean (fuel : Nat) (disk : Disk) : Run Disk :=
  chainCleanWalks disk.heads fuel disk.heads.zipIdx disk

/-- `enchain_block`.  In the last case the source fills a local head record for the block and
leaves it there. -/
def enchainBlock (sha256 : List UInt8 → Digest) (fuel : Nat) (disk : Disk) (block : Block) :
    Run Disk := do
  let blockHash := blockComputeHash sha256 block
  if disk.heads.length = 0 then return disk
  match ← ioLoadBlockHeader disk blockHash with
  | none => chainClean fuel disk
  | some _ =>
      if ← enchainWalks disk blockHash fuel disk.heads then chainClean fuel disk
      else
        match disk.heads.zipIdx.find? fun (head, _) => block.header.prevHash = head.hash with
        | some (head, i) =>
            chainClean fuel
              (ioHeadUpdate disk i { head with height := head.height + 1, hash := blockHash })
        | none => chainClean fuel disk

section Loads

variable {disk : Disk} {blockHash hash : Digest} {fuel : Nat} {heads : List Head} {i : Nat}

/-- The verdict of a walk is one of a walk with certain loads. -/
theorem enchainWalk_eq_ok {met : Bool} :
    enchainWalk disk blockHash fuel hash = .ok met ↔
      ∃ loads, enchainWalkLoads disk blockHash fuel hash = .ok (loads, met) := by
  simp [enchainWalk, Run.bind_eq_ok]

theorem chainCleanWalk_eq_ok {after : Disk} :
    chainCleanWalk heads i fuel hash disk = .ok after ↔
      ∃ loads, chainCleanWalkLoads heads i fuel hash disk = .ok (loads, after) := by
  simp [chainCleanWalk, Run.bind_eq_ok]

theorem enchainWalk_succ :
    enchainWalk disk blockHash (fuel + 1) hash = (do
      match ← ioLoadBlockHeader disk hash with
      | none => .ok false
      | some header =>
          if hash = blockHash then .ok true
          else if header.height = 0 then .ok false
          else enchainWalk disk blockHash fuel header.prevHash) := by
  rw [enchainWalk, enchainWalkLoads, bind_assoc]
  refine bind_congr fun loaded => ?_
  cases loaded with
  | none => rfl
  | some header =>
      dsimp only
      split
      · rfl
      · split
        · rfl
        · simp [enchainWalk]

theorem chainCleanWalk_succ :
    chainCleanWalk heads i (fuel + 1) hash disk = (do
      match ← ioLoadBlockHeader disk hash with
      | none => .ok disk
      | some header =>
          let disk := heads.zipIdx.foldl
            (fun disk (head, k) =>
              if k ≠ i ∧ hash = head.hash then ioHeadDelete disk hash else disk) disk
          if header.height = 0 then .ok disk
          else chainCleanWalk heads i fuel header.prevHash disk) := by
  rw [chainCleanWalk, chainCleanWalkLoads, bind_assoc]
  refine bind_congr fun loaded => ?_
  cases loaded with
  | none => rfl
  | some header =>
      dsimp only
      split
      · rfl
      · simp [chainCleanWalk]

end Loads

/-! ## Saving -/

/-- `io_save_block_raw`. -/
def ioSaveBlockRaw (sha256 : List UInt8 → Digest) (fuel : Nat) (disk : Disk) (src : List UInt8) :
    Run Disk := do
  let blockHash ← blockRawComputeHash sha256 src
  let blockSize ← blockRawComputeSize src
  let content ← readOut blockSize.toNat src
  let name := blockFileName blockHash
  let disk := { disk with blocks := Function.update disk.blocks name (some content) }
  let records ← txindexRecords sha256 src
  let index := records.flatMap fun record => record.2.toList
  let disk := { disk with txindex := Function.update disk.txindex name (some index) }
  let block ← mBlockDeserialize src
  enchainBlock sha256 fuel disk block

/-- Saving a sequence of raw blocks, one after the other. -/
def saveAll (sha256 : List UInt8 → Digest) (fuel : Nat) : List (List UInt8) → Disk → Run Disk
  | [], disk => .ok disk
  | src :: rest, disk => do
      let disk ← ioSaveBlockRaw sha256 fuel disk src
      saveAll sha256 fuel rest disk

end Freecoin
