import Freecoin.ProofOfWork
import Freecoin.Signatures

/-!
# Accepted transactions

When `validate_tx_pseudo` and `validate_tx_chain` accept a transaction with inputs.  The chain test
looks up the output behind every input but does not test whether the lookup succeeded: a failed one
leaves the amount of the one before it, or of uninitialised memory, to be added again.  It adds the
amount of the first output once for each output.
-/

namespace Freecoin

open Foundation

/-! ## Sums -/

/-- The amounts added for the inputs: a failed lookup repeats the amount that is already there. -/
def deliveredAmounts (store : Store) : TxOutput → List TxInput → List Nat
  | _, [] => []
  | output, input :: inputs =>
      let output := (store.loadNthTxOutput input.refTx input.outIndex).getD output
      output.amount.toNat :: deliveredAmounts store output inputs

/-- The amount `validate_tx_chain` takes a transaction to spend: as many times the amount of its
first output as it has outputs. -/
def Tx.claimedAmount (tx : Tx) : Nat :=
  tx.outs.length * tx.outs.head?.elim 0 fun output => output.amount.toNat

theorem sum_deliveredAmounts_le (store : Store) (output : TxOutput) (inputs : List TxInput) :
    (deliveredAmounts store output inputs).sum ≤ inputs.length * (2 ^ 32 - 1) := by
  induction inputs generalizing output with
  | nil => simp [deliveredAmounts]
  | cons input inputs ih =>
      have rest := ih ((store.loadNthTxOutput input.refTx input.outIndex).getD output)
      have amount :=
        ((store.loadNthTxOutput input.refTx input.outIndex).getD output).amount.toNat_lt
      simp only [deliveredAmounts, List.sum_cons, List.length_cons]
      omega

theorem sum_deliveredAmounts_of_constant {store : Store} {found : TxOutput}
    (constant : ∀ refTx outIndex, store.loadNthTxOutput refTx outIndex = some found)
    (output : TxOutput) (inputs : List TxInput) :
    (deliveredAmounts store output inputs).sum = inputs.length * found.amount.toNat := by
  induction inputs generalizing output with
  | nil => simp [deliveredAmounts]
  | cons input inputs ih =>
      simp only [deliveredAmounts, constant, Option.getD_some, List.sum_cons, List.length_cons,
        ih found]
      ring

theorem ofNat_add_amount (total : Nat) (amount : UInt32) :
    UInt64.ofNat total + amount.toUInt64 = .ofNat (total + amount.toNat) := by
  rw [UInt64.ofNat_add, UInt64.ofNat_uInt32ToNat]

theorem sumInputs_eq (store : Store) (tx : Tx) (index remaining : Nat) (output : TxOutput)
    (total : Nat) (inside : index + remaining = tx.ins.length) :
    sumInputs store tx index remaining output (.ofNat total) =
      .ok (.ofNat (total + (deliveredAmounts store output (tx.ins.drop index)).sum)) := by
  induction remaining generalizing index output total with
  | zero =>
      rw [List.drop_eq_nil_of_le (by omega)]
      rfl
  | succ remaining ih =>
      have within : index < tx.ins.length := by omega
      simp only [List.drop_eq_getElem_cons within, sumInputs, fetch_of_lt within, Run.ok_bind,
        ofNat_add_amount, ih _ _ _ (by omega : index + 1 + remaining = tx.ins.length),
        deliveredAmounts, List.sum_cons, Nat.add_assoc]

theorem sumAmounts_eq (amount : Nat → Run UInt32) {value : UInt32} (index remaining total : Nat)
    (small : index + remaining < 2 ^ 31)
    (constant : ∀ i, index ≤ i → i < index + remaining → amount i = .ok value) :
    sumAmounts amount index remaining (.ofNat total) =
      .ok (.ofNat (total + remaining * value.toNat)) := by
  induction remaining generalizing index total with
  | zero => simp [sumAmounts]
  | succ remaining ih =>
      rw [sumAmounts, constant index le_rfl (by omega), Run.ok_bind, intAdd_of_lt (by omega),
        Run.ok_bind, ofNat_add_amount,
        ih (index + 1) _ (by omega) fun i lower upper => constant i (by omega) (by omega)]
      congr 2
      ring

theorem sumOutputs_eq (tx : Tx) (few : tx.outs.length < 2 ^ 31) :
    sumAmounts (fun _ => TxOutput.amount <$> fetch tx.outs 0) 0 tx.outs.length 0 =
      .ok (.ofNat tx.claimedAmount) := by
  cases outs_eq : tx.outs with
  | nil => simp [sumAmounts, Tx.claimedAmount, outs_eq]
  | cons output outs =>
      have summed := sumAmounts_eq (fun _ => TxOutput.amount <$> fetch tx.outs 0) 0
        tx.outs.length 0 (by omega) fun _ _ _ => by
          rw [outs_eq]
          rfl
      rw [← outs_eq]
      refine summed.trans ?_
      simp [Tx.claimedAmount, outs_eq]

/-! ## Acceptance -/

section Acceptance

variable {primitives : Primitives} {tx : Tx} {first : TxInput} {rest : List TxInput}

theorem forall_mem_iff_fetch {α : Type} (cells : List α) (property : α → Prop) :
    (∀ cell ∈ cells, property cell) ↔
      ∀ i, 0 ≤ i → i < 0 + cells.length → ∃ cell, fetch cells i = .ok cell ∧ property cell := by
  constructor
  · intro all i _ inside
    rw [Nat.zero_add] at inside
    exact ⟨cells[i], fetch_of_lt inside, all _ (List.getElem_mem inside)⟩
  · intro each cell member
    obtain ⟨i, inside, rfl⟩ := List.mem_iff_getElem.mp member
    obtain ⟨found, fetched, holds⟩ := each i (Nat.zero_le i) (by omega)
    rw [fetch_of_lt inside] at fetched
    exact (Except.ok.inj fetched) ▸ holds

/-- A checking loop over an array passes exactly when every element does. -/
theorem checkRange_fetch_eq_zero {α : Type} {cells : List α} {check : Nat → α → Run UInt8}
    {passes : α → Prop} (each : ∀ i cell, check i cell = .ok 0 ↔ passes cell) :
    checkRange (fun i => fetch cells i >>= check i) 0 cells.length = .ok 0 ↔
      ∀ cell ∈ cells, passes cell := by
  rw [checkRange_eq_zero, forall_mem_iff_fetch]
  simp only [Run.bind_eq_ok, each]

/-- `validate_tx_pseudo` accepts exactly when the surplus is enough and the key of every input
accepts its signature of the message. -/
theorem validateTxPseudo_eq_zero_iff (counted : tx.Counted) (ins_eq : tx.ins = first :: rest)
    (signable : Nat → Nat → UInt8) :
    validateTxPseudo primitives signable tx = .ok 0 ↔
      ¬ ((txComputeSize tx).toUInt64 > 1000 ∧
        primitives.txComputeSurplus tx < primitives.txComputeRequiredSurplus tx) ∧
      ∀ input ∈ tx.ins, primitives.ecdsaVerify input.pubkey first.message input.sig = true := by
  have verdict : ∀ i (input : TxInput),
      validateTxInputPseudo primitives (signable i) input tx = .ok 0 ↔
        primitives.ecdsaVerify input.pubkey first.message input.sig = true := by
    intro i input
    rw [validateTxInputPseudo, signableMessage_eq counted ins_eq, Run.ok_bind]
    cases primitives.ecdsaVerify input.pubkey first.message input.sig with
    | false => simp [errTxBadSig]
    | true => simp
  rw [validateTxPseudo]
  split
  · rename_i poor
    simp [poor, errTxBadSurplus]
  · rename_i rich
    rw [counted.ins, checkRange_fetch_eq_zero verdict]
    exact ⟨fun all => ⟨rich, all⟩, fun both => both.2⟩

/-- The 64-bit sum over the inputs is exact. -/
theorem exists_inputSum (counted : tx.Counted) (store : Store) (output : TxOutput) :
    ∃ inputSum, sumInputs store tx 0 tx.header.inCount.toNat output 0 = .ok inputSum ∧
      inputSum.toNat = (deliveredAmounts store output tx.ins).sum := by
  have few := tx.header.inCount.toNat_lt
  rw [counted.ins] at few ⊢
  have summed := sumInputs_eq store tx 0 tx.ins.length output 0 (Nat.zero_add _)
  rw [List.drop_zero, Nat.zero_add] at summed
  have bound := sum_deliveredAmounts_le store output tx.ins
  refine ⟨_, summed, UInt64.toNat_ofNat_of_lt' ?_⟩
  change _ < 2 ^ 64
  omega

/-- The 64-bit sum over the outputs is exactly the claimed amount. -/
theorem exists_outputSum (counted : tx.Counted) :
    ∃ outputSum, sumAmounts (fun _ => TxOutput.amount <$> fetch tx.outs 0)
        0 tx.header.outCount.toNat 0 = .ok outputSum ∧
      outputSum.toNat = tx.claimedAmount := by
  have few := tx.header.outCount.toNat_lt
  rw [counted.outs] at few ⊢
  refine ⟨_, sumOutputs_eq tx (by omega), UInt64.toNat_ofNat_of_lt' ?_⟩
  change tx.claimedAmount < 2 ^ 64
  rw [Tx.claimedAmount]
  cases outs_eq : tx.outs with
  | nil => simp
  | cons first outs =>
      have amount := first.amount.toNat_lt
      rw [outs_eq] at few
      simp only [List.head?_cons, Option.elim_some]
      nlinarith

/-- `validate_tx_chain` accepts a transaction with inputs exactly when the claimed amount is
covered by the delivered ones and every input passes the scans. -/
theorem validateTxChain_eq_zero_iff {store : Store} {fuel : Nat} {output : TxOutput}
    {index : UInt32} {parent : Block} (counted : tx.Counted) (nonempty : tx.ins ≠ []) :
    validateTxChain primitives store fuel output tx index parent = .ok 0 ↔
      tx.claimedAmount ≤ (deliveredAmounts store output tx.ins).sum ∧
      ∀ input ∈ tx.ins, validateTxInputChain store fuel input parent = .ok 0 := by
  have present : tx.header.inCount ≠ 0 := by
    intro absent
    have count := counted.ins
    rw [absent] at count
    exact nonempty (List.length_eq_zero_iff.mp count.symm)
  obtain ⟨inputSum, ins, ins_eq⟩ := exists_inputSum counted store output
  obtain ⟨outputSum, outs, outs_eq⟩ := exists_outputSum counted
  have overspent : outputSum > inputSum ↔
      (deliveredAmounts store output tx.ins).sum < tx.claimedAmount := by
    rw [gt_iff_lt, UInt64.lt_iff_toNat_lt, ins_eq, outs_eq]
  rw [validateTxChain, if_neg (fun coinbase => present coinbase.2), if_neg present, ins, outs,
    Run.ok_bind, Run.ok_bind, counted.ins]
  split
  · rename_i excess
    simp [Nat.not_le.mpr (overspent.mp excess), errTxOverspend]
  · rename_i covered
    rw [overspent, Nat.not_lt] at covered
    have scanned : ∀ (_ : Nat) (input : TxInput),
        validateTxInputChain store fuel input parent = .ok 0 ↔
          validateTxInputChain store fuel input parent = .ok 0 := fun _ _ => Iff.rfl
    rw [checkRange_fetch_eq_zero scanned]
    exact ⟨fun all => ⟨covered, all⟩, fun both => both.2⟩

theorem validateTxChain_of_no_inputs {store : Store} {fuel : Nat} {output : TxOutput}
    {index : UInt32} {parent : Block} (counted : tx.Counted) (empty : tx.ins = [])
    (spending : ¬ (index = 0 ∧ tx.header.inCount = 0)) :
    validateTxChain primitives store fuel output tx index parent = .ok errTxBadInCount := by
  have absent : tx.header.inCount = 0 := by
    rw [← UInt16.toNat_inj, counted.ins, empty]
    rfl
  rw [validateTxChain, if_neg spending, if_pos absent]

end Acceptance

end Freecoin
