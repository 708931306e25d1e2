import Freecoin.DoubleSpends

/-!
# Chains of respends

For every layout that an accepted chain with a double spend can have there is one in which all
inputs consume the same output.  The blocks count their times from the first one, and one of them
may have height 0 and the digest 0, so that its predecessor is never loaded.
-/

namespace Freecoin

open Foundation

/-! ## The digest -/

/-- A digest that keeps the first 32 bytes. -/
def leadingBytes (bytes : List UInt8) : Digest :=
  ⟨(bytes ++ List.replicate 32 0).take 32, by simp⟩

/-- That digest, but 0 for the header with a given time. -/
def rootedBytes (root : UInt32) (bytes : List UInt8) : Digest :=
  if (bytes.drop posBlockHeaderTime).take 4 = uitob root then oneTrueRoot else leadingBytes bytes

/-- The first bytes of a header contain its time. -/
theorem time_eq_of_leadingBytes {left right : BlockHeader}
    (same : leadingBytes left.bytes = leadingBytes right.bytes) : left.time = right.time := by
  have bytes := congrArg (fun digest : Digest => (digest.toList.drop 2).take 4) same
  exact uitob_injective bytes

/-- They start with its version, which is not 0. -/
theorem leadingBytes_ne_oneTrueRoot {header : BlockHeader} (version : header.version = 2) :
    leadingBytes header.bytes ≠ oneTrueRoot := by
  intro zeros
  have bytes := congrArg (fun digest : Digest => digest.toList.take 2) zeros
  have front : ustob header.version = [0, 0] := bytes
  rw [version] at front
  exact absurd front (by decide)

theorem rootedBytes_header (root : UInt32) (header : BlockHeader) :
    rootedBytes root header.bytes =
      if header.time = root then oneTrueRoot else leadingBytes header.bytes := by
  have time : (header.bytes.drop posBlockHeaderTime).take 4 = uitob header.time := rfl
  simp only [rootedBytes, time, uitob_injective.eq_iff]

/-- The digest tells headers of version 2 apart by their times. -/
theorem time_eq_of_rootedBytes {root : UInt32} {left right : BlockHeader}
    (leftVersion : left.version = 2) (rightVersion : right.version = 2)
    (same : rootedBytes root left.bytes = rootedBytes root right.bytes) :
    left.time = right.time := by
  rw [rootedBytes_header, rootedBytes_header] at same
  split at same
  · rename_i leftRoot
    split at same
    · rename_i rightRoot
      exact leftRoot.trans rightRoot.symm
    · exact absurd same.symm (leadingBytes_ne_oneTrueRoot rightVersion)
  · split at same
    · exact absurd same (leadingBytes_ne_oneTrueRoot leftVersion)
    · exact time_eq_of_leadingBytes same

/-- That digest, signatures always accepted, no surplus. -/
def careless (root : UInt32) : Primitives where
  sha256 := rootedBytes root
  ecdsaVerify _ _ _ := true
  txComputeSurplus _ := 0
  txComputeRequiredSurplus _ := 0

/-! ## The blocks -/

/-- The input that is spent over and over. -/
def respentInput : TxInput where
  outIndex := 0
  refTx := List.Vector.replicate 32 0
  pubkey := List.Vector.replicate 128 0
  sig := List.Vector.replicate 128 0

def respendTx (count : Nat) : Tx where
  header := { version := 2, inCount := .ofNat count, outCount := 0, lockTime := 0 }
  ins := List.replicate count respentInput
  outs := []

/-- The root `compute_merkle_root` returns for such transactions, if it does. -/
def respendRoot (root : UInt32) (counts : List Nat) : Digest :=
  (computeMerkleRoot (rootedBytes root) (counts.map respendTx) (.ofNat counts.length)
    fun _ => 0).toOption.getD oneTrueRoot

/-- A block of such transactions on top of another block, one second later. -/
def respendBlock (root : UInt32) (parent : Block) (counts : List Nat) : Block where
  header :=
    { version := 2, time := parent.header.time + 1
      height := if parent.header.time + 1 = root then 0 else 145
      prevHash := blockComputeHash (rootedBytes root) parent, merkleRoot := respendRoot root counts
      target := { mantissa := 0, exponent := 1 }, nonce := 0, txCount := .ofNat counts.length }
  txs := counts.map respendTx

/-- A chain of such blocks on top of another block. -/
def respendBlocks (root : UInt32) (parent : Block) : List (List Nat) → List Block
  | [] => []
  | counts :: layout =>
      respendBlock root parent counts ::
        respendBlocks root (respendBlock root parent counts) layout

theorem respendTx_counted {count : Nat} (few : count ≤ 3) : (respendTx count).Counted where
  ins := by
    rw [respendTx, List.length_replicate]
    exact UInt16.toNat_ofNat_of_lt' (lt_of_le_of_lt few (by decide))
  outs := rfl

section Respend

variable {root : UInt32} {parent : Block} {counts : List Nat}

theorem respendBlock_layout : (respendBlock root parent counts).layout = counts := by
  rw [Block.layout, respendBlock, List.map_map]
  refine (List.map_congr_left fun count _ => ?_).trans (List.map_id counts)
  exact List.length_replicate

theorem respendBlock_counted (mergeable : Mergeable counts) :
    (respendBlock root parent counts).Counted where
  txs := by
    rw [respendBlock, List.length_map]
    exact UInt32.toNat_ofNat_of_lt' (mergeable.short.trans (by decide))
  tx := by
    intro tx member
    obtain ⟨count, countMember, rfl⟩ := List.mem_map.mp member
    exact respendTx_counted (mergeable.few count countMember)

theorem length_bytes_respendBlock (loadable : Loadable counts) :
    (respendBlock root parent counts).bytes.length ≤ maxBlockSize := by
  refine le_of_eq_of_le ?_ loadable
  rw [Block.length_bytes, respendBlock, List.map_map]
  congr 2
  refine List.map_congr_left fun count _ => ?_
  simp only [Function.comp_apply, Tx.length_bytes, respendTx, List.length_replicate,
    List.length_nil, sizeTxHeader, sizeTxInput]
  omega

theorem eq_respentInput_of_mem {input : TxInput}
    (member : input ∈ (respendBlock root parent counts).inputs) : input = respentInput := by
  obtain ⟨tx, txMember, inputMember⟩ := List.mem_flatMap.mp member
  obtain ⟨count, _, rfl⟩ := List.mem_map.mp txMember
  exact List.eq_of_mem_replicate inputMember

theorem validateTxPseudo_respendTx {count : Nat} (few : count ≤ 3)
    (signable : Nat → Nat → UInt8) :
    validateTxPseudo (careless root) signable (respendTx count) = .ok 0 := by
  cases count with
  | zero => rfl
  | succ count =>
      refine (validateTxPseudo_eq_zero_iff (respendTx_counted few) rfl signable).mpr
        ⟨fun poor => ?_, fun _ _ => rfl⟩
      exact absurd poor.2 (UInt32.lt_irrefl 0)

theorem computeMerkleRoot_respendBlock (root : UInt32) (parent : Block)
    (mergeable : Mergeable counts) :
    computeMerkleRoot (rootedBytes root) (respendBlock root parent counts).txs
      (respendBlock root parent counts).header.txCount (fun _ => 0) =
        .ok (respendRoot root counts) := by
  have outless : ∀ tx ∈ (respendBlock root parent counts).txs, tx.outs = [] := by
    intro tx member
    obtain ⟨count, _, rfl⟩ := List.mem_map.mp member
    rfl
  obtain ⟨merkleRoot, ran⟩ := exists_computeMerkleRoot (respendBlock_counted mergeable)
    (rootedBytes root) (respendBlock_layout ▸ mergeable) outless fun _ => 0
  have root_eq : respendRoot root counts = merkleRoot :=
    congrArg (fun result : Run Digest => result.toOption.getD oneTrueRoot) ran
  rw [ran, root_eq]

/-- Such a block passes the test on its own. -/
theorem validateBlockPseudo_respendBlock (mergeable : Mergeable counts) :
    validateBlockPseudo (careless root) zeroLeftovers (respendBlock root parent counts) =
      .ok 0 := by
  have target_eq :
      (respendBlock root parent counts).header.target = { mantissa := 0, exponent := 1 } := rfl
  have low : 1 ≤ (respendBlock root parent counts).header.target.exponent.toNat := by
    rw [target_eq]
    decide
  have high : (respendBlock root parent counts).header.target.exponent.toNat ≤ 32 := by
    rw [target_eq]
    decide
  have value : (respendBlock root parent counts).header.target.value = 0 := rfl
  have version : (respendBlock root parent counts).header.version = currentVersion := rfl
  have merkleRoot :
      respendRoot root counts = (respendBlock root parent counts).header.merkleRoot := rfl
  have computed := computeMerkleRoot_respendBlock root parent mergeable
  have passed : checkRange
      (fun i => do
        let tx ← fetch (respendBlock root parent counts).txs i
        validateTxPseudo (careless root) (zeroLeftovers.signable i) tx)
      0 (respendBlock root parent counts).header.txCount.toNat = .ok 0 := by
    rw [(respendBlock_counted mergeable).txs]
    refine checkRange_eq_zero.mpr fun i _ inside => ?_
    rw [Nat.zero_add] at inside
    obtain ⟨count, member, tx_eq⟩ := List.mem_map.mp (List.getElem_mem inside)
    rw [fetch_of_lt inside, Run.ok_bind, ← tx_eq]
    exact validateTxPseudo_respendTx (mergeable.few count member) _
  rw [validateBlockPseudo_eq (careless root) zeroLeftovers low high, zeroLeftovers,
    Target.bigValue_expand_zero low high, value, if_neg (by simp), validateBlockBody,
    if_neg (not_not.mpr version)]
  change (computeMerkleRoot (rootedBytes root) _ _ (fun _ => 0) >>= _) = _
  rw [computed, Run.ok_bind, if_neg (not_not.mpr merkleRoot)]
  split
  · exact passed
  · rfl

/-- Off the retarget heights the test compares the leftovers with a set byte. -/
theorem targetVerdict_zeroChainLeftovers {store : Store} {block : Block}
    (height : block.header.height = 145)
    (target : block.header.target = { mantissa := 0, exponent := 1 }) :
    targetVerdict store zeroChainLeftovers block = .ok 0 := by
  rw [targetVerdict, chainComputeNextTarget, height, target]
  rfl

/-- At the time of the root a block has the digest 0, which is all that is asked of height 0. -/
theorem validateBlockChain_respendBlock_root {store : Store}
    (time : (respendBlock root parent counts).header.time = root) :
    validateBlockChain (careless root) store zeroChainLeftovers (respendBlock root parent counts) =
      .ok 0 := by
  have height : (respendBlock root parent counts).header.height = 0 := if_pos time
  have hash : blockComputeHash (careless root).sha256 (respendBlock root parent counts) =
      oneTrueRoot := (rootedBytes_header root _).trans (if_pos time)
  rw [validateBlockChain, if_pos height, if_neg (not_not.mpr hash)]

/-- At any other time it passes the test in its chain when its predecessor's header is loaded. -/
theorem validateBlockChain_respendBlock {store : Store} {stored : Block}
    (time : (respendBlock root parent counts).header.time ≠ root)
    (loaded : store.loadBlock (blockComputeHash (rootedBytes root) parent) = .ok (some stored))
    (header_eq : stored.header = parent.header)
    (later : parent.header.time < (respendBlock root parent counts).header.time) :
    validateBlockChain (careless root) store zeroChainLeftovers (respendBlock root parent counts) =
      .ok 0 := by
  have height : (respendBlock root parent counts).header.height = 145 := if_neg time
  have nonzero : (respendBlock root parent counts).header.height ≠ 0 := by
    rw [height]
    decide
  have high : ¬ (respendBlock root parent counts).header.height < chainRecalcInterval := by
    rw [height]
    decide
  rw [← header_eq] at later
  rw [validateBlockChain_of_stored nonzero loaded later, if_neg high,
    targetVerdict_zeroChainLeftovers height rfl]

end Respend

/-! ## The whole chain -/

section RespendChain

variable {root : UInt32} {parent : Block} {layout : List (List Nat)}

theorem time_respendBlock {counts : List Nat} (small : parent.header.time.toNat + 1 < 2 ^ 32) :
    (respendBlock root parent counts).header.time.toNat = parent.header.time.toNat + 1 := by
  change (parent.header.time + 1).toNat = _
  rw [UInt32.toNat_add, UInt32.toNat_one, Nat.mod_eq_of_lt small]

theorem time_lt_respendBlock {counts : List Nat} (small : parent.header.time.toNat + 1 < 2 ^ 32) :
    parent.header.time < (respendBlock root parent counts).header.time := by
  rw [UInt32.lt_iff_toNat_lt, time_respendBlock small]
  exact Nat.lt_succ_self _

/-- What holds between a block and the next holds along the chain, as long as the time does not
overflow. -/
theorem isChain_respendBlocks {step : Block → Block → Prop}
    (steps : ∀ before counts, before.header.time.toNat + 1 < 2 ^ 32 →
      step before (respendBlock root before counts))
    (bounded : parent.header.time.toNat + layout.length < 2 ^ 32) :
    (parent :: respendBlocks root parent layout).IsChain step := by
  induction layout generalizing parent with
  | nil => exact List.IsChain.singleton parent
  | cons counts layout ih =>
      rw [List.length_cons] at bounded
      have small : parent.header.time.toNat + 1 < 2 ^ 32 := by omega
      refine List.isChain_cons_cons.mpr ⟨steps parent counts small, ih ?_⟩
      rw [time_respendBlock small]
      omega

/-- Every block of the chain is built on an earlier block of the chain. -/
theorem exists_parent_of_mem {block : Block} (member : block ∈ respendBlocks root parent layout)
    (bounded : parent.header.time.toNat + layout.length < 2 ^ 32) :
    ∃ before ∈ parent :: respendBlocks root parent layout, ∃ counts ∈ layout,
      block = respendBlock root before counts ∧ before.header.time < block.header.time := by
  induction layout generalizing parent with
  | nil => cases member
  | cons counts layout ih =>
      rw [List.length_cons] at bounded
      have small : parent.header.time.toNat + 1 < 2 ^ 32 := by omega
      rw [respendBlocks] at member ⊢
      cases member with
      | head =>
          exact ⟨parent, List.mem_cons_self, counts, List.mem_cons_self, rfl,
            time_lt_respendBlock small⟩
      | tail _ later =>
          obtain ⟨before, beforeMember, others, othersMember, built⟩ := ih later (by
            rw [time_respendBlock small]
            omega)
          exact ⟨before, List.mem_cons_of_mem _ beforeMember, others,
            List.mem_cons_of_mem _ othersMember, built⟩

theorem respendBlocks_layout : (respendBlocks root parent layout).map Block.layout = layout := by
  induction layout generalizing parent with
  | nil => rfl
  | cons counts layout ih =>
      rw [respendBlocks, List.map_cons, respendBlock_layout, ih]

/-- No two blocks of the chain have the same time. -/
theorem pairwise_time_ne_respendBlocks
    (bounded : parent.header.time.toNat + layout.length < 2 ^ 32) :
    (parent :: respendBlocks root parent layout).Pairwise fun left right =>
      left.header.time ≠ right.header.time := by
  have steps : (parent :: respendBlocks root parent layout).IsChain fun earlier later =>
      earlier.header.time < later.header.time :=
    isChain_respendBlocks (fun _ _ small => time_lt_respendBlock small) bounded
  refine (pairwise_time_lt steps).imp ?_
  intro earlier later lt same
  exact UInt32.lt_irrefl _ (same ▸ lt)

/-- The times count the blocks. -/
theorem exists_position_of_mem {block : Block} (member : block ∈ respendBlocks root parent layout)
    (bounded : parent.header.time.toNat + layout.length < 2 ^ 32) :
    ∃ i, layout[i]? = some block.layout ∧
      block.header.time.toNat = parent.header.time.toNat + i + 1 := by
  induction layout generalizing parent with
  | nil => cases member
  | cons counts layout ih =>
      rw [List.length_cons] at bounded
      have small : parent.header.time.toNat + 1 < 2 ^ 32 := by omega
      rw [respendBlocks] at member
      cases member with
      | head => exact ⟨0, congrArg some respendBlock_layout.symm, time_respendBlock small⟩
      | tail _ later =>
          obtain ⟨i, found, time⟩ := ih later (by
            rw [time_respendBlock small]
            omega)
          rw [time_respendBlock small] at time
          exact ⟨i + 1, found, by omega⟩

end RespendChain

/-- A first block without transactions. -/
def respendGenesis : Block where
  header := rootBlock.header
  txs := []

/-- The root is on top of the block that does not fit the buffer, if there is one below others. -/
def RootedAt (root : UInt32) (layout : List (List Nat)) : Prop :=
  ∀ i (inside : i + 1 < layout.length), ¬ Loadable layout[i] → root = .ofNat (i + 2)

theorem exists_rootedAt {layout : List (List Nat)}
    (loadable : layout.dropLast.Pairwise fun earlier later => Loadable earlier ∨ Loadable later) :
    ∃ root, RootedAt root layout := by
  by_cases large : ∃ i, ∃ inside : i + 1 < layout.length, ¬ Loadable layout[i]
  · obtain ⟨i, inside, oversized⟩ := large
    refine ⟨.ofNat (i + 2), fun j insideToo oversizedToo => ?_⟩
    rw [List.pairwise_iff_getElem] at loadable
    simp only [List.length_dropLast, List.getElem_dropLast] at loadable
    rcases Nat.lt_trichotomy i j with before | rfl | behind
    · have one := loadable i j (by omega) (by omega) before
      exact absurd one (not_or.mpr ⟨oversized, oversizedToo⟩)
    · rfl
    · have one := loadable j i (by omega) (by omega) behind
      exact absurd one (not_or.mpr ⟨oversizedToo, oversized⟩)
  · exact ⟨0, fun i inside oversized => absurd ⟨i, inside, oversized⟩ large⟩

section Assembly

variable {root : UInt32} {layout : List (List Nat)}

theorem respendGenesis_bounded (short : layout.length < 2 ^ 32) :
    respendGenesis.header.time.toNat + layout.length < 2 ^ 32 := by
  have start : respendGenesis.header.time.toNat = 0 := rfl
  omega

variable (short : layout.length < 2 ^ 32)

include short

theorem version_of_mem {block : Block}
    (member : block ∈ respendGenesis :: respendBlocks root respendGenesis layout) :
    block.header.version = 2 := by
  cases member with
  | head => rfl
  | tail _ later =>
      obtain ⟨_, _, _, _, rfl, _⟩ := exists_parent_of_mem later (respendGenesis_bounded short)
      rfl

theorem time_eq_of_mem {left right : Block}
    (leftMember : left ∈ respendGenesis :: respendBlocks root respendGenesis layout)
    (rightMember : right ∈ respendGenesis :: respendBlocks root respendGenesis layout)
    (same : blockComputeHash (rootedBytes root) left = blockComputeHash (rootedBytes root) right) :
    left.header.time = right.header.time :=
  time_eq_of_rootedBytes (version_of_mem short leftMember) (version_of_mem short rightMember) same

theorem pairwise_hash_ne_respendBlocks :
    (respendGenesis :: respendBlocks root respendGenesis layout).Pairwise fun left right =>
      blockComputeHash (rootedBytes root) left ≠ blockComputeHash (rootedBytes root) right := by
  refine (pairwise_time_ne_respendBlocks (respendGenesis_bounded short)).imp_of_mem ?_
  intro left right leftMember rightMember apart same
  exact apart (time_eq_of_mem short leftMember rightMember same)

/-- Every block below another one is small enough to be loaded, unless the other is the root. -/
theorem length_bytes_of_mem (rooted : RootedAt root layout) {before : Block} {counts : List Nat}
    (beforeMember : before ∈ respendGenesis :: respendBlocks root respendGenesis layout)
    (member : respendBlock root before counts ∈ respendBlocks root respendGenesis layout)
    (time : (respendBlock root before counts).header.time ≠ root) :
    before.bytes.length ≤ maxBlockSize := by
  cases beforeMember with
  | head => decide
  | tail _ below =>
      have start : respendGenesis.header.time.toNat = 0 := rfl
      obtain ⟨i, found, beforeTime⟩ :=
        exists_position_of_mem below (respendGenesis_bounded short)
      obtain ⟨j, above, blockTime⟩ :=
        exists_position_of_mem member (respendGenesis_bounded short)
      obtain ⟨inside, layout_eq⟩ := List.getElem?_eq_some_iff.mp found
      obtain ⟨insideAbove, _⟩ := List.getElem?_eq_some_iff.mp above
      have wrapped : (respendBlock root before counts).header.time.toNat =
          (before.header.time.toNat + 1) % 2 ^ 32 := UInt32.toNat_add _ _
      obtain ⟨_, _, others, _, built, _⟩ :=
        exists_parent_of_mem below (respendGenesis_bounded short)
      have loadable : Loadable before.layout := by
        by_contra large
        rw [← layout_eq] at large
        have root_eq : root.toNat = i + 2 :=
          rooted i (by omega) large ▸ UInt32.toNat_ofNat_of_lt' (by rw [UInt32.size]; omega)
        exact time (UInt32.toNat_inj.mp (by omega))
      rw [built, respendBlock_layout] at loadable
      rw [built]
      exact length_bytes_respendBlock loadable

theorem counted_of_mem (mergeable : ∀ counts ∈ layout, Mergeable counts) {block : Block}
    (member : block ∈ respendGenesis :: respendBlocks root respendGenesis layout) :
    block.Counted := by
  cases member with
  | head => exact ⟨rfl, by simp [respendGenesis]⟩
  | tail _ later =>
      obtain ⟨before, _, counts, countsMember, rfl, _⟩ :=
        exists_parent_of_mem later (respendGenesis_bounded short)
      exact respendBlock_counted (mergeable counts countsMember)

end Assembly

theorem header_eq_of_time_eq {blocks : List Block} {left right : Block}
    (times : blocks.Pairwise fun left right => left.header.time ≠ right.header.time)
    (leftMember : left ∈ blocks) (rightMember : right ∈ blocks)
    (same : left.header.time = right.header.time) : left.header = right.header := by
  let agree : Block → Block → Prop := fun left right =>
    left.header.time = right.header.time → left.header = right.header
  have forward : blocks.Pairwise agree := times.imp fun apart equal => absurd equal apart
  have backward : blocks.Pairwise (flip agree) :=
    times.imp fun apart equal => absurd equal.symm apart
  exact forward.forall_of_forall_of_flip (fun _ _ _ => rfl) backward leftMember rightMember same

/-- An accepted chain of a given layout in which all inputs consume the same output. -/
def respendChain (root : UInt32) (layout : List (List Nat)) (short : layout.length < 2 ^ 32)
    (mergeable : ∀ counts ∈ layout, Mergeable counts) (rooted : RootedAt root layout) :
    AcceptedChain where
  primitives := careless root
  disk := keepBlocks (rootedBytes root)
    (respendGenesis :: respendBlocks root respendGenesis layout)
  loadNthTxOutput _ _ := none
  blockAtHeight _ := oneTrueRoot
  genesis := respendGenesis
  blocks := respendBlocks root respendGenesis layout
  genesis_height := rfl
  genesis_txs := rfl
  counted _ member := counted_of_mem short mergeable member
  injective := by
    intro left leftMember right rightMember same
    exact header_eq_of_time_eq (pairwise_time_ne_respendBlocks (respendGenesis_bounded short))
      leftMember rightMember (time_eq_of_mem short leftMember rightMember same)
  linked := isChain_respendBlocks (fun _ _ _ => rfl) (respendGenesis_bounded short)
  stored _ member := blockFile_keepBlocks (pairwise_hash_ne_respendBlocks short) member
  pseudo := by
    intro block member
    obtain ⟨before, _, counts, countsMember, rfl, _⟩ :=
      exists_parent_of_mem member (respendGenesis_bounded short)
    exact ⟨zeroLeftovers, validateBlockPseudo_respendBlock (mergeable counts countsMember)⟩
  chain := by
    intro block member
    obtain ⟨before, beforeMember, counts, _, rfl, later⟩ :=
      exists_parent_of_mem member (respendGenesis_bounded short)
    refine ⟨zeroChainLeftovers, ?_⟩
    by_cases time : (respendBlock root before counts).header.time = root
    · exact validateBlockChain_respendBlock_root time
    · have load := mIoLoadBlock_eq (counted_of_mem short mergeable beforeMember)
        (blockFile_keepBlocks (pairwise_hash_ne_respendBlocks short) beforeMember)
        (length_bytes_of_mem short rooted beforeMember member time)
      exact validateBlockChain_respendBlock time load rfl later

section Main

variable {root : UInt32} {layout : List (List Nat)} (short : layout.length < 2 ^ 32)
  (mergeable : ∀ counts ∈ layout, Mergeable counts) (rooted : RootedAt root layout)

theorem respendChain_layout :
    (respendChain root layout short mergeable rooted).layout = layout :=
  respendBlocks_layout

theorem respendChain_inputs (input : TxInput)
    (member : input ∈ (respendChain root layout short mergeable rooted).inputs) :
    input = respentInput := by
  obtain ⟨block, blockMember, inputMember⟩ := List.mem_flatMap.mp member
  obtain ⟨before, _, counts, _, rfl, _⟩ :=
    exists_parent_of_mem blockMember (respendGenesis_bounded short)
  exact eq_respentInput_of_mem inputMember

theorem not_noDoubleSpend_respendChain (several : 2 ≤ layout.flatten.sum) :
    ¬ (respendChain root layout short mergeable rooted).NoDoubleSpend := by
  intro once
  have length_eq := (respendChain root layout short mergeable rooted).length_inputs
  rw [respendChain_layout] at length_eq
  have all := respendChain_inputs short mergeable rooted
  rw [AcceptedChain.NoDoubleSpend] at once
  rcases inputs_eq : (respendChain root layout short mergeable rooted).inputs with
    _ | ⟨first, _ | ⟨second, rest⟩⟩
  · rw [inputs_eq, List.length_nil] at length_eq
    omega
  · rw [inputs_eq, List.length_singleton] at length_eq
    omega
  · rw [inputs_eq] at once all
    have apart := (List.pairwise_cons.mp once).1 second List.mem_cons_self
    rw [all first (by simp), all second (by simp)] at apart
    exact apart ⟨rfl, rfl⟩

end Main

/-- An accepted chain whose layout has at most one input, or is not that of an accepted chain, is
free of double spends. -/
theorem noDoubleSpend_of_not_respendable (chain : AcceptedChain)
    (harmless : ¬ Respendable chain.layout) : chain.NoDoubleSpend := by
  by_cases several : 2 ≤ chain.layout.flatten.sum
  · exact absurd ⟨several, chain.mergeable, chain.loadable⟩ harmless
  · rw [← chain.length_inputs] at several
    rw [AcceptedChain.NoDoubleSpend]
    rcases inputs_eq : chain.inputs with _ | ⟨input, _ | ⟨other, rest⟩⟩
    · exact List.Pairwise.nil
    · exact List.pairwise_singleton _ _
    · simp [inputs_eq] at several

/-- An accepted chain is free of double spends when its layout has at most one input, or a block
that is never accepted (one without transactions, with `2 ^ 31` or more, or with a transaction of
more than three inputs), or two blocks, apart from the last one, that do not fit the buffer they are
loaded into.  Every other layout of fewer than `2 ^ 32` blocks is that of an accepted chain with a
double spend. -/
theorem noDoubleSpend_iff (layout : List (List Nat)) :
    (∀ chain : AcceptedChain, chain.layout = layout → ¬ Respendable layout →
      chain.NoDoubleSpend) ∧
    (layout.length < 2 ^ 32 →
      ((∀ chain : AcceptedChain, chain.layout = layout → chain.NoDoubleSpend) ↔
        ¬ Respendable layout)) := by
  have harmless : ∀ chain : AcceptedChain, chain.layout = layout → ¬ Respendable layout →
      chain.NoDoubleSpend := by
    rintro chain rfl
    exact noDoubleSpend_of_not_respendable chain
  refine ⟨harmless, fun short => ⟨fun free respendable => ?_, fun kept chain same =>
    harmless chain same kept⟩⟩
  obtain ⟨root, rooted⟩ := exists_rootedAt respendable.loadable
  exact not_noDoubleSpend_respendChain short respendable.mergeable rooted respendable.several
    (free _ (respendChain_layout short respendable.mergeable rooted))

theorem mergeable_singleton {count : Nat} (few : count ≤ 3) :
    ∀ counts ∈ [[count]], Mergeable counts := by
  intro counts member
  obtain rfl := List.mem_singleton.mp member
  exact ⟨List.cons_ne_nil _ _, by simp, fun other found => List.mem_singleton.mp found ▸ few⟩

/-- One block with one transaction, of the given number of inputs. -/
def singleChain (count : Nat) (few : count ≤ 3) : AcceptedChain :=
  respendChain 0 [[count]] (by simp) (mergeable_singleton few) fun i inside _ => by
    rw [List.length_singleton] at inside
    omega

theorem noDoubleSpend_singleChain_one :
    (singleChain 1 (by decide)).layout = [[1]] ∧ ¬ Respendable [[1]] ∧
      (singleChain 1 (by decide)).NoDoubleSpend := by
  have layout_eq : (singleChain 1 (by decide)).layout = [[1]] := respendChain_layout _ _ _
  have harmless : ¬ Respendable [[1]] := fun respendable =>
    absurd respendable.several (by decide)
  exact ⟨layout_eq, harmless, (noDoubleSpend_iff [[1]]).1 _ layout_eq harmless⟩

theorem noDoubleSpend_singleChain_two_fails : ¬ (singleChain 2 (by decide)).NoDoubleSpend :=
  not_noDoubleSpend_respendChain _ _ _ (by decide)

end Freecoin
