import Freecoin.Acceptance
import Freecoin.Serialization

/-!
# Amounts

No transaction may pay out more than its inputs deliver, and a coinbase no more than the reward and
the surplus of the other transactions.  `validate_tx_chain` adds the first output's amount once for
each output, and counts the coinbase's own surplus among the others.
-/

namespace Freecoin

open Foundation

/-! ## Exact sums -/

/-- The sum of the amounts of all outputs. -/
def Tx.outputTotal (tx : Tx) : Nat := (tx.outs.map fun output => output.amount.toNat).sum

/-- The sum of the amounts a lookup delivers for the inputs; a failed lookup delivers nothing. -/
def foundTotal (lookup : Digest → UInt16 → Option TxOutput) (ins : List TxInput) : Nat :=
  (ins.map fun input =>
    (lookup input.refTx input.outIndex).elim 0 fun output => output.amount.toNat).sum

/-- The sum of the surplus of some transactions. -/
def Primitives.surplusTotal (primitives : Primitives) (txs : List Tx) : Nat :=
  (txs.map fun tx => (primitives.txComputeSurplus tx).toNat).sum

/-- Adding up a 32-bit number for each element of an array. -/
theorem sumAmounts_fetch {α : Type} (cells : List α) (amount : α → UInt32)
    (index remaining total : Nat) (inside : index + remaining = cells.length)
    (small : cells.length < 2 ^ 31) :
    sumAmounts (fun i => amount <$> fetch cells i) index remaining (.ofNat total) =
      .ok (.ofNat (total + ((cells.drop index).map fun cell => (amount cell).toNat).sum)) := by
  induction remaining generalizing index total with
  | zero =>
      rw [List.drop_eq_nil_of_le (by omega)]
      rfl
  | succ remaining ih =>
      have within : index < cells.length := by omega
      have fetched : amount <$> fetch cells index = .ok (amount cells[index]) := by
        rw [fetch_of_lt within]
        rfl
      rw [sumAmounts, fetched, Run.ok_bind, intAdd_of_lt (by omega), Run.ok_bind,
        ofNat_add_amount, ih _ _ (by omega), List.drop_eq_getElem_cons within, List.map_cons,
        List.sum_cons, Nat.add_assoc]

/-- A sum that returns has counted its amounts with an `int`. -/
theorem small_of_sumAmounts {amount : Nat → Run UInt32} {index remaining : Nat}
    {total result : UInt64} (start : index < 2 ^ 31)
    (summed : sumAmounts amount index remaining total = .ok result) :
    index + remaining < 2 ^ 31 := by
  induction remaining generalizing index total with
  | zero => exact start
  | succ remaining ih =>
      simp only [sumAmounts, Run.bind_eq_ok, intAdd_eq_ok] at summed
      obtain ⟨_, _, _, ⟨next, rfl⟩, rest⟩ := summed
      have small := ih next rest
      omega

theorem sum_amounts_le {α : Type} (cells : List α) (amount : α → UInt32) :
    (cells.map fun cell => (amount cell).toNat).sum ≤ cells.length * (2 ^ 32 - 1) := by
  induction cells with
  | nil => simp
  | cons cell cells ih =>
      have bound := (amount cell).toNat_lt
      simp only [List.map_cons, List.sum_cons, List.length_cons]
      omega

/-- Adding up an array of 32-bit numbers that an `int` can count does not wrap. -/
theorem exists_sumAmounts {α : Type} (cells : List α) (amount : α → UInt32)
    (few : cells.length < 2 ^ 31) :
    ∃ total, sumAmounts (fun i => amount <$> fetch cells i) 0 cells.length 0 = .ok total ∧
      total.toNat = (cells.map fun cell => (amount cell).toNat).sum := by
  have summed := sumAmounts_fetch cells amount 0 cells.length 0 (Nat.zero_add _) few
  rw [List.drop_zero, Nat.zero_add] at summed
  have bound := sum_amounts_le cells amount
  refine ⟨_, summed, UInt64.toNat_ofNat_of_lt' ?_⟩
  change _ < 2 ^ 64
  omega

/-! ## Coinbase -/

/-- What is asked of the first transaction of a block when it has no inputs. -/
structure CoinbaseRule (primitives : Primitives) (store : Store) (fuel : Nat) (output : TxOutput)
    (coinbase : Tx) (others : List Tx) (block : Block) : Prop where
  accepted_iff : validateTxChain primitives store fuel output coinbase 0 block = .ok 0 ↔
    coinbase.outputTotal ≤ miningReward.toNat + primitives.surplusTotal others
  outTotal_exact : ∃ outTotal,
    sumAmounts (fun i => TxOutput.amount <$> fetch coinbase.outs i)
        0 coinbase.header.outCount.toNat 0 = .ok outTotal ∧
      outTotal.toNat = coinbase.outputTotal
  blockSurplus_exact : ∃ blockSurplus,
    sumAmounts (fun t => primitives.txComputeSurplus <$> fetch block.txs t)
        0 block.header.txCount.toNat 0 = .ok blockSurplus ∧
      (blockSurplus + miningReward).toNat =
        primitives.surplusTotal block.txs + miningReward.toNat

section Coinbase

variable {primitives : Primitives} {store : Store} {fuel : Nat} {output : TxOutput}
  {coinbase : Tx} {others : List Tx} {block : Block}

theorem exists_outTotal (counted : coinbase.Counted) :
    ∃ outTotal, sumAmounts (fun i => TxOutput.amount <$> fetch coinbase.outs i)
        0 coinbase.header.outCount.toNat 0 = .ok outTotal ∧
      outTotal.toNat = coinbase.outputTotal := by
  have few := coinbase.header.outCount.toNat_lt
  rw [counted.outs] at few ⊢
  exact exists_sumAmounts coinbase.outs TxOutput.amount (by omega)

theorem exists_blockSurplus (primitives : Primitives)
    (count : block.header.txCount.toNat = block.txs.length) (few : block.txs.length < 2 ^ 31) :
    ∃ blockSurplus, sumAmounts (fun t => primitives.txComputeSurplus <$> fetch block.txs t)
        0 block.header.txCount.toNat 0 = .ok blockSurplus ∧
      (blockSurplus + miningReward).toNat =
        primitives.surplusTotal block.txs + miningReward.toNat := by
  rw [count]
  obtain ⟨blockSurplus, summed, exact_sum⟩ :=
    exists_sumAmounts block.txs primitives.txComputeSurplus few
  have bound := sum_amounts_le block.txs primitives.txComputeSurplus
  refine ⟨blockSurplus, summed, ?_⟩
  rw [UInt64.toNat_add, exact_sum, Primitives.surplusTotal, miningReward]
  apply Nat.mod_eq_of_lt
  change _ + 20 < 2 ^ 64
  omega

/-- A coinbase is accepted when the reward and the surplus of all transactions of the block, itself
included, cover its outputs. -/
theorem validateTxChain_coinbase_eq_zero_iff (counted : coinbase.Counted)
    (noInputs : coinbase.ins = []) (count : block.header.txCount.toNat = block.txs.length)
    (few : block.txs.length < 2 ^ 31) :
    validateTxChain primitives store fuel output coinbase 0 block = .ok 0 ↔
      coinbase.outputTotal ≤ primitives.surplusTotal block.txs + miningReward.toNat := by
  have absent : coinbase.header.inCount = 0 := by
    rw [← UInt16.toNat_inj, counted.ins, noInputs]
    rfl
  obtain ⟨outTotal, outs, outs_eq⟩ := exists_outTotal counted
  obtain ⟨blockSurplus, surplus, surplus_eq⟩ := exists_blockSurplus primitives count few
  rw [validateTxChain, if_pos ⟨rfl, absent⟩, outs, Run.ok_bind, surplus, Run.ok_bind,
    ← outs_eq, ← surplus_eq, ← UInt64.le_iff_toNat_le]
  split
  · rename_i excess
    simp [UInt64.not_le.mpr excess, errTxBadCoinbase]
  · rename_i covered
    simp [UInt64.not_lt.mp covered]

/-- The coinbase rule holds exactly when an `int` can count the transactions of the block and the
coinbase pays out no more than the rule allows, or more than the rule allows by more than its own
surplus. -/
theorem coinbaseRule_iff (primitives : Primitives) (store : Store) (fuel : Nat) (output : TxOutput)
    (counted : coinbase.Counted) (noInputs : coinbase.ins = [])
    (txs_eq : block.txs = coinbase :: others)
    (count : block.header.txCount.toNat = block.txs.length) :
    CoinbaseRule primitives store fuel output coinbase others block ↔
      block.txs.length < 2 ^ 31 ∧
        (coinbase.outputTotal ≤ miningReward.toNat + primitives.surplusTotal others ∨
          miningReward.toNat + primitives.surplusTotal others +
            (primitives.txComputeSurplus coinbase).toNat < coinbase.outputTotal) := by
  have total : primitives.surplusTotal block.txs =
      (primitives.txComputeSurplus coinbase).toNat + primitives.surplusTotal others := by
    rw [txs_eq]
    rfl
  have accepted : block.txs.length < 2 ^ 31 →
      (validateTxChain primitives store fuel output coinbase 0 block = .ok 0 ↔
        coinbase.outputTotal ≤ miningReward.toNat + primitives.surplusTotal others +
          (primitives.txComputeSurplus coinbase).toNat) := by
    intro few
    rw [validateTxChain_coinbase_eq_zero_iff counted noInputs count few, total]
    constructor <;> intro bound <;> omega
  constructor
  · intro rule
    obtain ⟨_, summed, _⟩ := rule.blockSurplus_exact
    have few := small_of_sumAmounts (by decide) summed
    rw [Nat.zero_add, count] at few
    have stated := rule.accepted_iff
    rw [accepted few] at stated
    refine ⟨few, ?_⟩
    by_contra outside
    rw [not_or, Nat.not_lt] at outside
    exact outside.1 (stated.mp outside.2)
  · rintro ⟨few, condition⟩
    refine ⟨?_, exists_outTotal counted, exists_blockSurplus primitives count few⟩
    rw [accepted few]
    rcases condition with within | beyond
    · exact iff_of_true (by omega) within
    · exact iff_of_false (by omega) (by omega)

end Coinbase

/-- The block that has only that coinbase. -/
def coinbaseBlock (amount : UInt32) : Block where
  header := { easyBlock.header with txCount := 1 }
  txs := [coinbaseOf amount]

/-- Primitives by which the surplus of a transaction without inputs wraps around. -/
def wrappingSurplus : Primitives :=
  { permissive with txComputeSurplus := fun tx => 0 - .ofNat tx.outputTotal }

/-- The store of an empty data directory. -/
def emptyStore : Store := Disk.empty.store (fun _ _ => none) fun _ => oneTrueRoot

/-- An output record of zeros. -/
def zeroOutput : TxOutput where
  outAddr := List.Vector.replicate 32 0
  amount := 0

/-- A coinbase of exactly the reward is judged as it should be. -/
theorem coinbaseRule_of_reward :
    ((coinbaseOf 20).Counted ∧ (coinbaseOf 20).ins = []) ∧
      CoinbaseRule wrappingSurplus emptyStore 0 zeroOutput (coinbaseOf 20) [] (coinbaseBlock 20) :=
  ⟨⟨by decide, rfl⟩, (coinbaseRule_iff wrappingSurplus emptyStore 0 zeroOutput (by decide) rfl rfl
    rfl).mpr ⟨by decide, .inl (by decide)⟩⟩

/-- A coinbase of one coin more is accepted: its own surplus, wrapped around, pays for it. -/
theorem coinbaseRule_fails :
    validateTxChain wrappingSurplus emptyStore 0 zeroOutput (coinbaseOf 21) 0 (coinbaseBlock 21) =
        .ok 0 ∧
      ¬ CoinbaseRule wrappingSurplus emptyStore 0 zeroOutput (coinbaseOf 21) []
        (coinbaseBlock 21) := by
  have accepted : validateTxChain wrappingSurplus emptyStore 0 zeroOutput (coinbaseOf 21) 0
      (coinbaseBlock 21) = .ok 0 :=
    (validateTxChain_coinbase_eq_zero_iff (by decide) rfl rfl (by decide)).mpr (by decide)
  refine ⟨accepted, fun rule => ?_⟩
  have within := rule.accepted_iff.mp accepted
  exact absurd within (by decide)

/-! ## Conservation -/

/-- Whenever `validate_tx_chain` accepts the transaction, its outputs do not exceed what the lookups
deliver for its inputs. -/
def Conserves (tx : Tx) (lookup : Digest → UInt16 → Option TxOutput) : Prop :=
  ∀ (primitives : Primitives) (store : Store) (fuel : Nat) (output : TxOutput) (index : UInt32)
    (parent : Block), store.loadNthTxOutput = lookup →
    validateTxChain primitives store fuel output tx index parent = .ok 0 →
      tx.outputTotal ≤ foundTotal lookup tx.ins

/-- The lookup finds an output for every input. -/
def FindsAll (lookup : Digest → UInt16 → Option TxOutput) (ins : List TxInput) : Prop :=
  ∀ input ∈ ins, (lookup input.refTx input.outIndex).isSome

/-- The pair of transaction and position an input refers to. -/
def TxInput.reference (input : TxInput) : Digest × UInt16 := (input.refTx, input.outIndex)

/-- When no lookup fails, the loop adds up what is delivered. -/
theorem sum_deliveredAmounts_of_findsAll {store : Store} (output : TxOutput) {ins : List TxInput}
    (found : FindsAll store.loadNthTxOutput ins) :
    (deliveredAmounts store output ins).sum = foundTotal store.loadNthTxOutput ins := by
  induction ins generalizing output with
  | nil => rfl
  | cons input ins ih =>
      obtain ⟨delivered, answer⟩ := Option.isSome_iff_exists.mp (found input (by simp))
      have rest := ih delivered fun other member => found other (by simp [member])
      simp only [deliveredAmounts, answer, Option.getD_some, List.sum_cons, rest, foundTotal,
        List.map_cons, Option.elim_some]

/-- When every lookup fails, the record is added as it is for every input. -/
theorem sum_deliveredAmounts_of_none {store : Store}
    (none_found : ∀ refTx outIndex, store.loadNthTxOutput refTx outIndex = none)
    (output : TxOutput) (ins : List TxInput) :
    (deliveredAmounts store output ins).sum = ins.length * output.amount.toNat := by
  induction ins with
  | nil => simp [deliveredAmounts]
  | cons input ins ih =>
      simp only [deliveredAmounts, none_found, Option.getD_none, List.sum_cons, List.length_cons,
        ih]
      ring

/-- Below a block of height 1 without transactions no input is found spent. -/
theorem validateTxInputChain_of_bare {store : Store} {fuel : Nat} {input : TxInput}
    {parent : Block} (height : parent.header.height = 1) (empty : parent.header.txCount = 0) :
    validateTxInputChain store fuel input parent = .ok 0 := by
  rw [validateTxInputChain, empty, height]
  cases fuel <;> rfl

/-- A block of height 1 without transactions. -/
def bareParent : Block := { easyBlock with header := { easyBlock.header with height := 1 } }

section Conservation

variable {tx : Tx}

/-- Only the amounts can stop a transaction from being accepted in that block. -/
theorem validateTxChain_bareParent (counted : tx.Counted) (nonempty : tx.ins ≠ []) {store : Store}
    {output : TxOutput} (covered : tx.claimedAmount ≤ (deliveredAmounts store output tx.ins).sum) :
    validateTxChain permissive store 0 output tx 1 bareParent = .ok 0 :=
  (validateTxChain_eq_zero_iff counted nonempty).mpr
    ⟨covered, fun _ _ => validateTxInputChain_of_bare rfl rfl⟩

/-- With every lookup successful, the outputs of an accepted transaction are covered exactly when
they are covered anyway, or the claimed amount is not. -/
theorem conserves_iff_of_findsAll (counted : tx.Counted) (nonempty : tx.ins ≠ [])
    {lookup : Digest → UInt16 → Option TxOutput} (found : FindsAll lookup tx.ins) :
    Conserves tx lookup ↔
      tx.outputTotal ≤ foundTotal lookup tx.ins ∨
        foundTotal lookup tx.ins < tx.claimedAmount := by
  constructor
  · intro conserves
    rw [or_iff_not_imp_right, Nat.not_lt]
    intro covered
    let store : Store := { emptyStore with loadNthTxOutput := lookup }
    have delivered : (deliveredAmounts store zeroOutput tx.ins).sum = foundTotal lookup tx.ins :=
      sum_deliveredAmounts_of_findsAll zeroOutput found
    exact conserves permissive store 0 zeroOutput 1 bareParent rfl
      (validateTxChain_bareParent counted nonempty (delivered.symm ▸ covered))
  · rintro (within | beyond) primitives store fuel output index parent rfl accepted
    · exact within
    · have covered := ((validateTxChain_eq_zero_iff counted nonempty).mp accepted).1
      rw [sum_deliveredAmounts_of_findsAll output found] at covered
      exact absurd covered (Nat.not_le.mpr beyond)

/-- Whatever the lookups answer, the outputs of an accepted transaction are covered exactly when
there is nothing to cover, or the claimed amount is more than the inputs can ever deliver. -/
theorem forall_conserves_iff (counted : tx.Counted) (nonempty : tx.ins ≠ []) :
    (∀ lookup, Conserves tx lookup) ↔
      tx.outputTotal = 0 ∨ tx.ins.length * (2 ^ 32 - 1) < tx.claimedAmount := by
  constructor
  · intro conserves
    rw [or_iff_not_imp_right, Nat.not_lt]
    intro covered
    -- Every lookup fails, and the record happens to hold the largest amount.
    let largest : TxOutput := { zeroOutput with amount := 0xffffffff }
    have unanswered : ∀ refTx outIndex, emptyStore.loadNthTxOutput refTx outIndex = none :=
      fun _ _ => rfl
    have repeated := sum_deliveredAmounts_of_none unanswered largest tx.ins
    have nothing : foundTotal (fun _ _ => none) tx.ins = 0 := by simp [foundTotal]
    have accepted := validateTxChain_bareParent counted nonempty (covered.trans repeated.ge)
    have bound := conserves (fun _ _ => none) permissive emptyStore 0 largest 1 bareParent rfl
      accepted
    rw [nothing] at bound
    omega
  · rintro (nothing | beyond) lookup primitives store fuel output index parent rfl accepted
    · omega
    · have covered := ((validateTxChain_eq_zero_iff counted nonempty).mp accepted).1
      have bound := sum_deliveredAmounts_le store output tx.ins
      omega

/-- Distinct references can be given amounts that add up to any total within reach. -/
theorem exists_amounts {Reference : Type} [DecidableEq Reference] (most : Nat)
    {references : List Reference} (distinct : references.Nodup) {total : Nat}
    (reachable : total ≤ references.length * most) :
    ∃ amount : Reference → Nat, (∀ reference, amount reference ≤ most) ∧
      (references.map amount).sum = total := by
  induction references generalizing total with
  | nil =>
      refine ⟨fun _ => 0, fun _ => Nat.zero_le _, ?_⟩
      simp only [List.length_nil, Nat.zero_mul, Nat.le_zero] at reachable
      simp [reachable]
  | cons reference references ih =>
      obtain ⟨fresh, distinctRest⟩ := List.nodup_cons.mp distinct
      rw [List.length_cons, Nat.add_mul, Nat.one_mul] at reachable
      have restReachable : total - min total most ≤ references.length * most := by omega
      obtain ⟨amount, bounded, summed⟩ := ih distinctRest restReachable
      refine ⟨Function.update amount reference (min total most), fun other => ?_, ?_⟩
      · by_cases same : other = reference
        · simp [same]
        · rw [Function.update_of_ne same]
          exact bounded other
      · have unchanged : references.map (Function.update amount reference (min total most)) =
            references.map amount := List.map_congr_left fun other member =>
          Function.update_of_ne (ne_of_mem_of_not_mem member fresh) _ _
        rw [List.map_cons, List.sum_cons, Function.update_self, unchanged, summed]
        omega

/-- When the inputs refer to different outputs, and all of them exist, the outputs of an accepted
transaction are covered, whatever amounts exist, exactly when the first output's amount is at least
the average, or the claimed amount is more than the inputs can ever deliver. -/
theorem forall_findsAll_conserves_iff (counted : tx.Counted) (nonempty : tx.ins ≠ [])
    (distinct : (tx.ins.map TxInput.reference).Nodup) :
    (∀ lookup, FindsAll lookup tx.ins → Conserves tx lookup) ↔
      tx.outputTotal ≤ tx.claimedAmount ∨
        tx.ins.length * (2 ^ 32 - 1) < tx.claimedAmount := by
  constructor
  · intro conserves
    rw [or_iff_not_imp_right, Nat.not_lt]
    intro reachable
    rw [← List.length_map (f := TxInput.reference)] at reachable
    obtain ⟨amount, bounded, summed⟩ := exists_amounts (2 ^ 32 - 1) distinct reachable
    let lookup : Digest → UInt16 → Option TxOutput := fun refTx outIndex =>
      some { zeroOutput with amount := .ofNat (amount (refTx, outIndex)) }
    have found : FindsAll lookup tx.ins := fun _ _ => rfl
    have total : foundTotal lookup tx.ins = tx.claimedAmount := by
      rw [← summed, foundTotal, List.map_map]
      congr 1
      refine List.map_congr_left fun input _ => ?_
      have bound := bounded (input.refTx, input.outIndex)
      exact toNat_ofNat_of_lt (by omega)
    have covered := (conserves_iff_of_findsAll counted nonempty found).mp
      (conserves lookup found)
    rw [total] at covered
    exact covered.resolve_right (lt_irrefl _)
  · rintro (within | beyond) lookup found
    · rw [conserves_iff_of_findsAll counted nonempty found]
      omega
    · exact (forall_conserves_iff counted nonempty).mpr (.inr beyond) lookup

end Conservation

/-- When accepted transactions pay out no more than their inputs deliver, for one store in which the
outputs exist, for every such store, and for every store at all; and that the accumulators are
exact. -/
theorem conserves_iff {tx : Tx} (counted : tx.Counted) (nonempty : tx.ins ≠ []) :
    (∀ lookup, FindsAll lookup tx.ins →
      (Conserves tx lookup ↔ tx.outputTotal ≤ foundTotal lookup tx.ins ∨
        foundTotal lookup tx.ins < tx.claimedAmount)) ∧
    ((tx.ins.map TxInput.reference).Nodup →
      ((∀ lookup, FindsAll lookup tx.ins → Conserves tx lookup) ↔
        tx.outputTotal ≤ tx.claimedAmount ∨
          tx.ins.length * (2 ^ 32 - 1) < tx.claimedAmount)) ∧
    ((∀ lookup, Conserves tx lookup) ↔
      tx.outputTotal = 0 ∨ tx.ins.length * (2 ^ 32 - 1) < tx.claimedAmount) ∧
    ∀ store output,
      (∃ inputSum, sumInputs store tx 0 tx.header.inCount.toNat output 0 = .ok inputSum ∧
        inputSum.toNat = (deliveredAmounts store output tx.ins).sum) ∧
      ∃ outputSum, sumAmounts (fun _ => TxOutput.amount <$> fetch tx.outs 0)
          0 tx.header.outCount.toNat 0 = .ok outputSum ∧
        outputSum.toNat = tx.claimedAmount :=
  ⟨fun _ found => conserves_iff_of_findsAll counted nonempty found,
    fun distinct => forall_findsAll_conserves_iff counted nonempty distinct,
    forall_conserves_iff counted nonempty,
    fun store output => ⟨exists_inputSum counted store output, exists_outputSum counted⟩⟩

/-- A transaction with one input and two outputs. -/
def splitSpend (first second : UInt32) : Tx where
  header := { version := 2, inCount := 1, outCount := 2, lockTime := 0 }
  ins := (plainSpend 2).ins
  outs := [{ zeroOutput with amount := first }, { zeroOutput with amount := second }]

/-- With equal outputs the first one stands for both. -/
theorem conserves_splitSpend_equal :
    (splitSpend 3 3).Counted ∧ (splitSpend 3 3).ins ≠ [] ∧
      ∀ lookup, FindsAll lookup (splitSpend 3 3).ins → Conserves (splitSpend 3 3) lookup :=
  ⟨by decide, by decide, ((conserves_iff (by decide) (by decide)).2.1 (by decide)).mpr
    (.inl (by decide))⟩

/-- An output of nothing in front lets the second one create five coins. -/
theorem conserves_splitSpend_fails :
    FindsAll (fun _ _ => some zeroOutput) (splitSpend 0 5).ins ∧
      ¬ Conserves (splitSpend 0 5) fun _ _ => some zeroOutput := by
  have found : FindsAll (fun _ _ => some zeroOutput) (splitSpend 0 5).ins := fun _ _ => rfl
  refine ⟨found, fun conserves => ?_⟩
  have condition := (conserves_iff_of_findsAll (by decide) (by decide) found).mp conserves
  exact absurd condition (by decide)

end Freecoin
