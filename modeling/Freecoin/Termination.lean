import Freecoin.Retarget
import Freecoin.SpentLayouts

/-!
# Termination of the chain tests

Neither `validate_block_chain` nor the walk of `validate_tx_input_chain` tests what
`m_io_load_block` returns, and the walk stops at height 0 only.  Both return a code exactly when the
blocks they ask for are stored, and fit the buffer they are loaded into, down to where they stop,
and neither an array nor an `int` ends before the loops do.
-/

namespace Freecoin

open Foundation SpendingChain

/-! ## The target test -/

/-- The target test stays inside its buffers. -/
structure TargetReady (store : Store) (headerA header : BlockHeader) : Prop where
  low : 1 ≤ header.target.exponent.toNat
  high : header.target.exponent.toNat ≤ 32
  retarget : header.height % chainRecalcInterval = 0 → ∃ call : RetargetCall,
    call.store = store ∧ call.headerA = headerA ∧ call.headerB = header ∧ call.Fits

/-- From the first retarget on, the next target is computed exactly when a retarget fits. -/
theorem exists_chainComputeNextTarget_iff {store : Store} {headerA header : BlockHeader}
    (beyond : ¬ header.height < chainRecalcInterval) (prior : Target) :
    (∃ next, chainComputeNextTarget store headerA header prior = .ok next) ↔
      (header.height % chainRecalcInterval = 0 → ∃ call : RetargetCall,
        call.store = store ∧ call.headerA = headerA ∧ call.headerB = header ∧ call.Fits) := by
  constructor
  · rintro ⟨next, returned⟩ multiple
    have branch := returned
    rw [chainComputeNextTarget, if_neg beyond, if_pos multiple] at branch
    obtain ⟨loaded, load, _⟩ := Run.bind_eq_ok.mp branch
    let call : RetargetCall := ⟨store, headerA, header, loaded, beyond, multiple, load⟩
    exact ⟨call, rfl, rfl, rfl, (call.exists_next_iff prior).mp ⟨next, returned⟩⟩
  · intro fits
    by_cases multiple : header.height % chainRecalcInterval = 0
    · obtain ⟨call, rfl, rfl, rfl, fit⟩ := fits multiple
      exact (call.exists_next_iff prior).mpr fit
    · exact ⟨prior, by rw [chainComputeNextTarget, if_neg beyond, if_neg multiple]⟩

theorem exists_targetVerdict_iff {store : Store} {leftovers : ChainLeftovers} {block : Block}
    (beyond : ¬ block.header.height < chainRecalcInterval) :
    (∃ code, targetVerdict store leftovers block = .ok code) ↔
      TargetReady store leftovers.headerA block.header := by
  constructor
  · rintro ⟨code, returned⟩
    simp only [targetVerdict, Run.bind_eq_ok] at returned
    obtain ⟨next, computed, expanded, written, _⟩ := returned
    obtain ⟨low, high⟩ :=
      (exists_targetToBtarget_iff leftovers.hashBuffer2.toList_length).mp ⟨expanded, written⟩
    exact ⟨low, high, (exists_chainComputeNextTarget_iff beyond _).mp ⟨next, computed⟩⟩
  · rintro ⟨low, high, retarget⟩
    obtain ⟨expanded, written⟩ :=
      (exists_targetToBtarget_iff leftovers.hashBuffer2.toList_length).mpr ⟨low, high⟩
    obtain ⟨next, computed⟩ := (exists_chainComputeNextTarget_iff beyond
      { mantissa := leftovers.hashBuffer1.toList.getD 0 0
        exponent := leftovers.hashBuffer1.toList.getD 1 0 }).mpr retarget
    rw [targetVerdict, computed, Run.ok_bind, written, Run.ok_bind]
    split
    · exact ⟨_, rfl⟩
    · exact ⟨_, rfl⟩

/-- What `validate_block_chain` needs to return: a stored predecessor, unless the height is 0, and,
when the times are in order and the target is looked at, a target inside the buffers. -/
def BlockReady (store : Store) (headerA : BlockHeader) (block : Block) : Prop :=
  block.header.height = 0 ∨ ∃ prevBlock,
    store.loadBlock block.header.prevHash = .ok (some prevBlock) ∧
      (block.header.time ≤ prevBlock.header.time ∨ block.header.height < chainRecalcInterval ∨
        TargetReady store headerA block.header)

theorem exists_validateBlockChain_iff {primitives : Primitives} {store : Store}
    {leftovers : ChainLeftovers} {block : Block} :
    (∃ code, validateBlockChain primitives store leftovers block = .ok code) ↔
      BlockReady store leftovers.headerA block := by
  by_cases bottom : block.header.height = 0
  · refine iff_of_true ?_ (.inl bottom)
    rw [validateBlockChain, if_pos bottom]
    split
    · exact ⟨_, rfl⟩
    · exact ⟨_, rfl⟩
  · rw [BlockReady, or_iff_right bottom]
    constructor
    · rintro ⟨code, returned⟩
      have loading := returned
      rw [validateBlockChain, if_neg bottom] at loading
      obtain ⟨result, loaded, rest⟩ := Run.bind_eq_ok.mp loading
      cases result with
      | none => cases rest
      | some prevBlock =>
          refine ⟨prevBlock, loaded, ?_⟩
          by_cases early : block.header.time ≤ prevBlock.header.time
          · exact .inl early
          · rw [validateBlockChain_of_stored bottom loaded (UInt32.not_le.mp early)] at returned
            by_cases low : block.header.height < chainRecalcInterval
            · exact .inr (.inl low)
            · rw [if_neg low] at returned
              exact .inr (.inr ((exists_targetVerdict_iff low).mp ⟨code, returned⟩))
    · rintro ⟨prevBlock, loaded, ready⟩
      by_cases early : block.header.time ≤ prevBlock.header.time
      · refine ⟨errBlockBadTime, ?_⟩
        rw [validateBlockChain, if_neg bottom, loaded, Run.ok_bind]
        exact if_pos early
      · rw [validateBlockChain_of_stored bottom loaded (UInt32.not_le.mp early)]
        by_cases low : block.header.height < chainRecalcInterval
        · exact ⟨_, if_pos low⟩
        · rw [if_neg low]
          exact (exists_targetVerdict_iff low).mpr ((ready.resolve_left early).resolve_left low)

/-! ## The walk -/

/-- The walk stops: it is at height 0, or the block is stored and reveals a spend. -/
def WalkEnds (store : Store) (input : TxInput) (state : UInt32 × Digest) : Prop :=
  state.1 = 0 ∨ ∃ block, store.loadBlock state.2 = .ok (some block) ∧ block.Reveals 0 input

section Walk

variable {store : Store} {input : TxInput}

theorem exists_walkStops_iff {state : UInt32 × Digest} :
    (∃ code, WalkStops store input state code) ↔ WalkEnds store input state := by
  constructor
  · rintro ⟨code, ⟨bottom, _⟩ | ⟨_, _, reveals⟩⟩
    · exact .inl bottom
    · exact .inr reveals
  · intro ends
    by_cases bottom : state.1 = 0
    · exact ⟨_, .inl ⟨bottom, rfl⟩⟩
    · exact ⟨_, .inr ⟨bottom, rfl, ends.resolve_left bottom⟩⟩

/-- What `validate_tx_input_chain` needs to return: the block reveals a second spend, or it clears
the input and the walk gets to an end. -/
def InputReady (store : Store) (input : TxInput) (block : Block) : Prop :=
  block.Reveals 1 input ∨ block.Clears 1 input ∧
    ∃ last, block.Walks store input last ∧ WalkEnds store input last

theorem exists_inputCheckReturns_iff {block : Block} :
    (∃ code, InputCheckReturns store input block code) ↔ InputReady store input block := by
  constructor
  · rintro ⟨code, returns⟩
    rcases inputCheckReturns_iff.mp returns with ⟨_, scan⟩ | ⟨clears, walks⟩
    · exact .inl (Block.scan_none_iff.mp scan)
    · obtain ⟨last, walk, stops⟩ := walkReturns_iff_exists.mp walks
      exact .inr ⟨clears, last, walk, exists_walkStops_iff.mp ⟨code, stops⟩⟩
  · rintro (reveals | ⟨clears, last, walk, ends⟩)
    · exact ⟨_, inputCheckReturns_iff.mpr (.inl ⟨rfl, Block.scan_none_iff.mpr reveals⟩)⟩
    · obtain ⟨code, stops⟩ := exists_walkStops_iff.mpr ends
      exact ⟨code, inputCheckReturns_iff.mpr
        (.inr ⟨clears, walkReturns_iff_exists.mpr ⟨last, walk, stops⟩⟩)⟩

end Walk

/-! ## Both tests -/

/-- Both tests of a block and one of its inputs return a code, and neither reads from a block that
was not loaded. -/
structure Terminates (primitives : Primitives) (store : Store) (leftovers : ChainLeftovers)
    (block : Block) (input : TxInput) : Prop where
  block_returns : ∃ code, validateBlockChain primitives store leftovers block = .ok code
  block_loaded : validateBlockChain primitives store leftovers block ≠ .error .nullPointer
  input_returns : ∃ fuel code, validateTxInputChain store fuel input block = .ok code
  input_loaded : ∀ fuel, validateTxInputChain store fuel input block ≠ .error .nullPointer

/-- The tests terminate exactly when the predecessor can be loaded (or is not needed) with a target
inside the buffers, and the blocks of the walk can be loaded and scanned down to height 0 or to one
that spends the output. -/
theorem terminates_iff (primitives : Primitives) (disk : Disk)
    (loadNthTxOutput : Digest → UInt16 → Option TxOutput) (blockAtHeight : UInt64 → Digest)
    (leftovers : ChainLeftovers) (block : Block) (input : TxInput)
    (count : block.header.txCount.toNat = block.txs.length) :
    Terminates primitives (disk.store loadNthTxOutput blockAtHeight) leftovers block input ↔
      BlockReady (disk.store loadNthTxOutput blockAtHeight) leftovers.headerA block ∧
        InputReady (disk.store loadNthTxOutput blockAtHeight) input block := by
  have counted := disk.store_counted loadNthTxOutput blockAtHeight
  constructor
  · intro terminates
    obtain ⟨fuel, code, returned⟩ := terminates.input_returns
    have returns := (exists_validateTxInputChain_iff count counted).mp ⟨fuel, returned⟩
    exact ⟨exists_validateBlockChain_iff.mp terminates.block_returns,
      exists_inputCheckReturns_iff.mp ⟨code, returns⟩⟩
  · rintro ⟨blockReady, inputReady⟩
    obtain ⟨blockCode, blockReturned⟩ := exists_validateBlockChain_iff.mpr blockReady
    obtain ⟨code, returns⟩ := exists_inputCheckReturns_iff.mpr inputReady
    obtain ⟨fuel, returned⟩ := (exists_validateTxInputChain_iff count counted).mpr returns
    refine ⟨⟨blockCode, blockReturned⟩, ?_, ⟨fuel, code, returned⟩, fun budget => ?_⟩
    · rw [blockReturned]
      intro fault
      cases fault
    · intro fault
      rcases validateTxInputChain_of_returns count counted returns budget with ok | out
      · cases ok.symm.trans fault
      · cases out.symm.trans fault

/-- Two transactions with one input each, on top of a stored block of height 0. -/
theorem terminates_pairChain :
    pairChain.parent.header.txCount.toNat = pairChain.parent.txs.length ∧
      Terminates permissive pairChain.store zeroChainLeftovers pairChain.parent respentInput := by
  have ancestry : Ancestry pairChain.disk (0 + 1) pairChain.parent.header.prevHash
      [stackBlock [] []] := pairChain.ancestry
  have blockReady : BlockReady pairChain.store zeroChainLeftovers.headerA pairChain.parent := by
    cases ancestry with
    | step counted stored _ _ =>
        exact .inr ⟨_, mIoLoadBlock_eq counted stored (by decide), .inr (.inl (by decide))⟩
  have inputReady : InputReady pairChain.store respentInput pairChain.parent := by
    have level : pairChain.parent.Level := ⟨1, by decide, by decide⟩
    obtain ⟨readable, all⟩ := level.readable pairChain.counted (by decide)
    refine .inr ⟨⟨readable, ?_⟩, _, .refl, .inl rfl⟩
    rw [all]
    decide
  exact ⟨pairChain.counted.txs, (terminates_iff permissive pairChain.disk _ _ zeroChainLeftovers
    pairChain.parent respentInput pairChain.counted.txs).mpr ⟨blockReady, inputReady⟩⟩

/-- The same transactions in a block of height 2. -/
def orphanBlock : Block :=
  stackBlock (stackBlocks [[], []]) [inputsTx [respentInput], inputsTx [otherInput]]

/-- Without its predecessor, both tests read from a block that was not loaded. -/
theorem terminates_orphanBlock_fails :
    respentInput ∈ orphanBlock.inputs ∧
      validateBlockChain permissive (Disk.empty.store (fun _ _ => none) fun _ => oneTrueRoot)
        zeroChainLeftovers orphanBlock = .error .nullPointer ∧
      validateTxInputChain (Disk.empty.store (fun _ _ => none) fun _ => oneTrueRoot) 1 respentInput
        orphanBlock = .error .nullPointer ∧
      ¬ Terminates permissive (Disk.empty.store (fun _ _ => none) fun _ => oneTrueRoot)
        zeroChainLeftovers orphanBlock respentInput := by
  have fault : validateBlockChain permissive
      (Disk.empty.store (fun _ _ => none) fun _ => oneTrueRoot) zeroChainLeftovers orphanBlock =
        .error .nullPointer := rfl
  exact ⟨by decide, fault, rfl, fun terminates => terminates.block_loaded fault⟩

end Freecoin
