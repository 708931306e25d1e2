import Freecoin.Acceptance
import Freecoin.Scans

/-!
# Who may spend an output

`validate_tx_chain` looks up the output behind every input but tests neither whether the lookup
succeeded nor to whom the output is addressed.  So an accepted spend is made by the owner only if
the references happen to lead to outputs of the spending keys, and the answers of the lookups can
always be such that they do not, unless the transaction is refused on some other ground.
-/

namespace Freecoin

open Foundation

/-- What holds of each of some elements from some budget on holds of all from some budget on. -/
theorem exists_enough_of_forall {α : Type} {cells : List α} {holds : Nat → α → Prop}
    (each : ∀ cell ∈ cells, ∃ enough, ∀ fuel, enough ≤ fuel → holds fuel cell) :
    ∃ enough, ∀ fuel, enough ≤ fuel → ∀ cell ∈ cells, holds fuel cell := by
  induction cells with
  | nil => exact ⟨0, fun _ _ _ member => absurd member List.not_mem_nil⟩
  | cons cell cells ih =>
      obtain ⟨first, others⟩ := List.forall_mem_cons.mp each
      obtain ⟨firstEnough, firstHolds⟩ := first
      obtain ⟨enough, holds⟩ := ih others
      refine ⟨max firstEnough enough, fun fuel budget => List.forall_mem_cons.mpr ⟨?_, ?_⟩⟩
      · exact firstHolds fuel (le_of_max_le_left budget)
      · exact holds fuel (le_of_max_le_right budget)

/-- What the two transaction validators are run on. -/
structure SpendCheck where
  primitives : Primitives
  disk : Disk
  loadNthTxOutput : Digest → UInt16 → Option TxOutput
  blockAtHeight : UInt64 → Digest
  /-- The allocations made for the signable bytes. -/
  signable : Nat → Nat → UInt8
  /-- The record of `validate_tx_chain` before the first lookup. -/
  output : TxOutput
  tx : Tx
  index : UInt32
  parent : Block
  counted : tx.Counted
  count : parent.header.txCount.toNat = parent.txs.length
  /-- Not a coinbase transaction. -/
  spending : ¬ (index = 0 ∧ tx.header.inCount = 0)

namespace SpendCheck

def store (check : SpendCheck) : Store :=
  check.disk.store check.loadNthTxOutput check.blockAtHeight

/-- Both validators accept the transaction, with a budget for the walks over the ancestors. -/
def AcceptedWithin (check : SpendCheck) (fuel : Nat) : Prop :=
  validateTxPseudo check.primitives check.signable check.tx = .ok 0 ∧
    validateTxChain check.primitives check.store fuel check.output check.tx check.index
      check.parent = .ok 0

/-- Both validators accept the transaction. -/
def Accepted (check : SpendCheck) : Prop := ∃ fuel, check.AcceptedWithin fuel

/-- Every input refers to an existing output that is addressed to its key. -/
def Owned (check : SpendCheck) : Prop :=
  ∀ input ∈ check.tx.ins, ∃ output,
    check.store.loadNthTxOutput input.refTx input.outIndex = some output ∧
      output.outAddr = cryptAddr check.primitives.sha256 input.pubkey

/-- The grounds on which the validators refuse a transaction that is not a coinbase, whatever
`io_load_nth_tx_output` answers.  The last one is that the block, or a stored block of the walk from
it, does not clear an input, so that the walk does not get down to height 0. -/
inductive Flawed (check : SpendCheck) : Prop where
  | noInput : check.tx.ins = [] → Flawed check
  | surplus : (txComputeSize check.tx).toUInt64 > 1000 →
      check.primitives.txComputeSurplus check.tx <
        check.primitives.txComputeRequiredSurplus check.tx → Flawed check
  | signature {first input : TxInput} : check.tx.ins.head? = some first → input ∈ check.tx.ins →
      check.primitives.ecdsaVerify input.pubkey first.message input.sig = false → Flawed check
  | scan {input : TxInput} : input ∈ check.tx.ins →
      ¬ check.parent.Passes check.store input → Flawed check

/-- The amount the inputs are taken to deliver. -/
def delivered (check : SpendCheck) : Nat :=
  (deliveredAmounts check.store check.output check.tx.ins).sum

theorem store_counted (check : SpendCheck) : check.store.Counted :=
  check.disk.store_counted check.loadNthTxOutput check.blockAtHeight

section Accepted

variable {check : SpendCheck}

theorem acceptedWithin_iff_of_cons {first : TxInput} {rest : List TxInput}
    (ins_eq : check.tx.ins = first :: rest) (fuel : Nat) :
    check.AcceptedWithin fuel ↔
      (¬ ((txComputeSize check.tx).toUInt64 > 1000 ∧
        check.primitives.txComputeSurplus check.tx <
          check.primitives.txComputeRequiredSurplus check.tx) ∧
      ∀ input ∈ check.tx.ins,
        check.primitives.ecdsaVerify input.pubkey first.message input.sig = true) ∧
      check.tx.claimedAmount ≤ check.delivered ∧
      ∀ input ∈ check.tx.ins,
        validateTxInputChain check.store fuel input check.parent = .ok 0 := by
  rw [AcceptedWithin, validateTxPseudo_eq_zero_iff check.counted ins_eq,
    validateTxChain_eq_zero_iff check.counted (by simp [ins_eq]), delivered]

theorem passes_of_validateTxInputChain {input : TxInput} {fuel : Nat}
    (returned : validateTxInputChain check.store fuel input check.parent = .ok 0) :
    check.parent.Passes check.store input :=
  inputCheckReturns_zero_iff.mp
    ((exists_validateTxInputChain_iff check.count check.store_counted).mp ⟨fuel, returned⟩)

theorem exists_validateTxInputChain_of_passes {input : TxInput}
    (passes : check.parent.Passes check.store input) :
    ∃ enough, ∀ fuel, enough ≤ fuel →
      validateTxInputChain check.store fuel input check.parent = .ok 0 :=
  exists_validateTxInputChain check.count check.store_counted
    (inputCheckReturns_zero_iff.mpr passes)

/-- A transaction that is accepted within some budget has no flaw, and what it claims is
delivered. -/
theorem not_flawed_of_acceptedWithin {fuel : Nat} (accepted : check.AcceptedWithin fuel) :
    ¬ check.Flawed ∧ check.tx.claimedAmount ≤ check.delivered := by
  cases ins_eq : check.tx.ins with
  | nil =>
      have chain := accepted.2
      rw [validateTxChain_of_no_inputs check.counted ins_eq check.spending] at chain
      exact absurd (Except.ok.inj chain) (by decide)
  | cons first rest =>
      obtain ⟨⟨rich, signed⟩, covered, scanned⟩ :=
        (acceptedWithin_iff_of_cons ins_eq fuel).mp accepted
      refine ⟨fun flawed => ?_, covered⟩
      cases flawed with
      | noInput empty => simp [ins_eq] at empty
      | surplus large poor => exact rich ⟨large, poor⟩
      | signature head member bad =>
          rw [ins_eq, List.head?_cons, Option.some.injEq] at head
          rw [← head, signed _ member] at bad
          contradiction
      | scan member failed => exact failed (passes_of_validateTxInputChain (scanned _ member))

/-- Such a transaction is accepted within every budget that is large enough. -/
theorem exists_acceptedWithin (flawless : ¬ check.Flawed)
    (covered : check.tx.claimedAmount ≤ check.delivered) :
    ∃ enough, ∀ fuel, enough ≤ fuel → check.AcceptedWithin fuel := by
  cases ins_eq : check.tx.ins with
  | nil => exact absurd (.noInput ins_eq) flawless
  | cons first rest =>
      have each : ∀ input ∈ check.tx.ins, ∃ enough, ∀ fuel, enough ≤ fuel →
          validateTxInputChain check.store fuel input check.parent = .ok 0 := fun input member =>
        exists_validateTxInputChain_of_passes
          (not_not.mp fun failed => flawless (.scan member failed))
      obtain ⟨enough, scanned⟩ := exists_enough_of_forall each
      refine ⟨enough, fun fuel budget => (acceptedWithin_iff_of_cons ins_eq fuel).mpr
        ⟨⟨fun poor => flawless (.surplus poor.1 poor.2), fun input member => ?_⟩, covered,
          scanned fuel budget⟩⟩
      by_contra unsigned
      exact flawless (.signature (by rw [ins_eq]; rfl) member (Bool.eq_false_iff.mpr unsigned))

/-- A transaction is accepted exactly when it has no flaw and what it claims is delivered. -/
theorem accepted_iff :
    check.Accepted ↔ ¬ check.Flawed ∧ check.tx.claimedAmount ≤ check.delivered := by
  constructor
  · rintro ⟨fuel, accepted⟩
    exact not_flawed_of_acceptedWithin accepted
  · rintro ⟨flawless, covered⟩
    obtain ⟨enough, accepted⟩ := exists_acceptedWithin flawless covered
    exact ⟨enough, accepted enough le_rfl⟩

end Accepted

/-! ## Other answers -/

/-- The same check with other answers of `io_load_nth_tx_output`. -/
def withLookup (check : SpendCheck) (loadNthTxOutput : Digest → UInt16 → Option TxOutput) :
    SpendCheck :=
  { check with loadNthTxOutput }

section Lookup

variable (check : SpendCheck) (loadNthTxOutput : Digest → UInt16 → Option TxOutput)

/-- The scans read blocks, not outputs. -/
theorem passes_withLookup (input : TxInput) :
    (check.withLookup loadNthTxOutput).parent.Passes (check.withLookup loadNthTxOutput).store
      input ↔ check.parent.Passes check.store input := Iff.rfl

theorem flawed_of_withLookup (flawed : (check.withLookup loadNthTxOutput).Flawed) :
    check.Flawed := by
  cases flawed with
  | noInput empty => exact .noInput empty
  | surplus large poor => exact .surplus large poor
  | signature head member bad => exact .signature head member bad
  | scan member failed =>
      exact .scan member fun passed =>
        failed ((check.passes_withLookup loadNthTxOutput _).mpr passed)

/-- The way back is to put the old answers in again. -/
theorem flawed_withLookup : (check.withLookup loadNthTxOutput).Flawed ↔ check.Flawed :=
  ⟨check.flawed_of_withLookup loadNthTxOutput,
    (check.withLookup loadNthTxOutput).flawed_of_withLookup check.loadNthTxOutput⟩

theorem delivered_withLookup_le :
    (check.withLookup loadNthTxOutput).delivered ≤ check.tx.ins.length * (2 ^ 32 - 1) :=
  sum_deliveredAmounts_le _ _ check.tx.ins

/-- Most is delivered when every reference leads to the largest amount there is. -/
theorem delivered_withLookup_largest (outAddr : Bytes 32) :
    (check.withLookup fun _ _ => some { outAddr, amount := 0xffffffff }).delivered =
      check.tx.ins.length * (2 ^ 32 - 1) := by
  have constant : ∀ refTx outIndex,
      (check.withLookup fun _ _ => some { outAddr, amount := 0xffffffff }).store.loadNthTxOutput
        refTx outIndex = some { outAddr, amount := 0xffffffff } := fun _ _ => rfl
  exact sum_deliveredAmounts_of_constant constant check.output check.tx.ins

end Lookup

end SpendCheck

/-- Some address is not the one a key hashes to. -/
theorem exists_other_address (addr : Bytes 32) : ∃ other : Bytes 32, other ≠ addr := by
  by_cases zeros : List.Vector.replicate 32 0 = addr
  · refine ⟨List.Vector.replicate 32 1, fun ones => ?_⟩
    have heads := congrArg List.Vector.head (zeros.trans ones.symm)
    exact absurd heads (by decide)
  · exact ⟨_, zeros⟩

/-- A transaction is accepted exactly when it is refused neither on a ground no answer can lift nor
for what it claims, and then within every budget that is large enough.  Whatever the lookups answer,
an accepted spend is made by the owner exactly for the transactions that are refused on such a
ground, or claim more than any answers can deliver. -/
theorem owned_of_accepted_iff (check : SpendCheck) :
    (check.Accepted ↔ ¬ check.Flawed ∧ check.tx.claimedAmount ≤ check.delivered) ∧
    (check.Accepted → ∃ enough, ∀ fuel, enough ≤ fuel → check.AcceptedWithin fuel) ∧
    ((∀ loadNthTxOutput, (check.withLookup loadNthTxOutput).Accepted →
        (check.withLookup loadNthTxOutput).Owned) ↔
      check.Flawed ∨ check.tx.ins.length * (2 ^ 32 - 1) < check.tx.claimedAmount) := by
  refine ⟨SpendCheck.accepted_iff, fun accepted => ?_, fun owned => ?_, ?_⟩
  · obtain ⟨flawless, covered⟩ := SpendCheck.accepted_iff.mp accepted
    exact SpendCheck.exists_acceptedWithin flawless covered
  · by_contra kept
    rw [not_or, Nat.not_lt] at kept
    obtain ⟨flawless, covered⟩ := kept
    cases ins_eq : check.tx.ins with
    | nil => exact flawless (.noInput ins_eq)
    | cons first rest =>
        obtain ⟨outAddr, foreign⟩ :=
          exists_other_address (cryptAddr check.primitives.sha256 first.pubkey)
        have accepted : (check.withLookup fun _ _ =>
            some { outAddr, amount := 0xffffffff }).Accepted := by
          rw [SpendCheck.accepted_iff, check.flawed_withLookup, check.delivered_withLookup_largest]
          exact ⟨flawless, covered⟩
        have member : first ∈ check.tx.ins := by simp [ins_eq]
        obtain ⟨output, found, addressed⟩ := owned _ accepted first member
        obtain rfl := Option.some.inj found
        exact foreign addressed
  · rintro (flawed | overspent) loadNthTxOutput accepted
    · rw [SpendCheck.accepted_iff, check.flawed_withLookup] at accepted
      exact absurd flawed accepted.1
    · rw [SpendCheck.accepted_iff] at accepted
      have bound := check.delivered_withLookup_le loadNthTxOutput
      exact absurd (accepted.2.trans bound) (Nat.not_le.mpr overspent)

/-! ## A spend of nothing -/

/-- A block whose second transaction spends an output of the transaction `0…0`. -/
def unbackedParent : Block where
  header := { easyBlock.header with height := 1, txCount := 2 }
  txs :=
    [{ header := { version := 2, inCount := 0, outCount := 0, lockTime := 0 }, ins := []
       outs := [] },
      plainSpend 2]

/-- The second transaction of that block, checked against a directory without any output. -/
def unbackedSpend : SpendCheck where
  primitives := permissive
  disk := Disk.empty
  loadNthTxOutput _ _ := none
  blockAtHeight _ := oneTrueRoot
  signable _ _ := 0
  output := { outAddr := List.Vector.replicate 32 0, amount := 0 }
  tx := plainSpend 2
  index := 1
  parent := unbackedParent
  counted := by decide
  count := rfl
  spending := by decide

theorem unbackedSpend_accepted_not_owned : unbackedSpend.Accepted ∧ ¬ unbackedSpend.Owned := by
  have ins_eq : unbackedSpend.tx.ins = [unbackedSpend.tx.ins.head (by decide)] := rfl
  constructor
  · refine ⟨0, (SpendCheck.acceptedWithin_iff_of_cons ins_eq 0).mpr
      ⟨⟨by decide, fun _ _ => rfl⟩, by decide, fun input member => ?_⟩⟩
    rfl
  · intro owned
    obtain ⟨output, found, _⟩ := owned _ (List.head_mem (by decide))
    cases found

end Freecoin
