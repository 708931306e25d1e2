import Freecoin.Retarget

/-!
# Mined chains

What the miner can build on the block of `m_gen_genesis_block`.  The exponent of that block's target
is 0, and `chain_compute_next_target` hands the target on from block to block below the retarget
interval.  The first retarget would write its byte in front of the buffer, so that nothing is
prepared on the block of height 144; and the proof-of-work test writes there for every block of the
chain.
-/

namespace Freecoin

open Foundation

/-! ## The genesis block -/

/-- `GENESIS_PREV`. -/
def genesisPrev : Digest :=
  ⟨[0x47, 0x4e, 0x55, 0x2f, 0x48, 0x75, 0x72, 0x64, 0x20, 0x31, 0x2e, 0x30, 0x20, 0x52, 0x65, 0x6c,
    0x65, 0x61, 0x73, 0x65, 0x64, 0x21, 0x00, 0x00, 0x00, 0x00, 0x00, 0x00, 0x00, 0x00, 0x00, 0x00],
    rfl⟩

/-- `m_gen_genesis_block` at a time of the network.  The Merkle root and the transactions are not
set: they stay as the allocated block has them. -/
def mGenGenesisBlock (netTime : UInt32) (block : Block) : Block :=
  { block with
    header := { block.header with
      height := 0
      nonce := 0
      prevHash := genesisPrev
      target := chainInitialTarget
      time := netTime
      txCount := 0
      version := currentVersion } }

/-! ## One block -/

/-- A call of `new_workblock` when the highest chained head is the block with the header `tip` and
its record has the height of this header, with what the local variables hold before they are
set. -/
structure WorkblockCall (tip : BlockHeader) where
  store : Store
  highestHead : Head
  highestHeader : BlockHeader
  headerA : BlockHeader
  header : BlockHeader
  nextTarget : Target
  height_eq : highestHead.height = tip.height
  load : store.loadBlockHeader highestHead.hash = .ok (some tip)

namespace WorkblockCall

variable {tip : BlockHeader} (call : WorkblockCall tip)

def run : Run BlockHeader :=
  newWorkblockHeader call.store call.highestHead call.highestHeader call.headerA call.header
    call.nextTarget

/-- What is prepared is the next height with the next target. -/
theorem run_eq_ok {work : BlockHeader} :
    call.run = .ok work ↔
      ∃ target, chainComputeNextTarget call.store call.headerA tip call.nextTarget = .ok target ∧
        { call.header with
          prevHash := call.highestHead.hash
          target
          height := tip.height + 1
          nonce := 0
          version := currentVersion } = work := by
  rw [run, newWorkblockHeader, call.load, Run.ok_bind]
  simp only [Option.getD_some, Run.bind_eq_ok, Run.pure_eq_ok, Except.ok.injEq, call.height_eq]

end WorkblockCall

/-- `child` was mined on `parent`: the Merkle root, the time, the transaction count and the nonce
are filled in where `new_workblock` returned. -/
structure Mined (parent child : BlockHeader) : Prop where
  prepared : ∃ (call : WorkblockCall parent) (work : BlockHeader), call.run = .ok work ∧
    child = { work with
      merkleRoot := child.merkleRoot
      time := child.time
      txCount := child.txCount
      nonce := child.nonce }

/-- A retarget of a target that names no byte does not return. -/
theorem chainComputeNextTarget_ne_ok {store : Store} {headerA headerB : BlockHeader}
    (beyond : ¬ headerB.height < chainRecalcInterval)
    (multiple : headerB.height % chainRecalcInterval = 0)
    (outside : ¬ (1 ≤ headerB.target.exponent.toNat ∧ headerB.target.exponent.toNat ≤ 32))
    (nextTarget next : Target) :
    chainComputeNextTarget store headerA headerB nextTarget ≠ .ok next := by
  intro returned
  obtain ⟨loaded, load⟩ := exists_load_of_retarget beyond multiple returned
  let call : RetargetCall := ⟨store, headerA, headerB, loaded, beyond, multiple, load⟩
  have unfit : ¬ call.Fits := fun fits => outside ⟨fits.low, fits.high⟩
  cases (call.outOfBounds_of_not_fits unfit nextTarget).symm.trans returned

/-- The state of a mined chain at its last block: the target is still the initial one, and the
height has not passed the interval. -/
structure Unchanged (tip : BlockHeader) : Prop where
  target : tip.target = chainInitialTarget
  height : tip.height.toNat ≤ 144

namespace Unchanged

variable {tip : BlockHeader} (unchanged : Unchanged tip)

include unchanged

theorem outside : ¬ (1 ≤ tip.target.exponent.toNat ∧ tip.target.exponent.toNat ≤ 32) := by
  rw [unchanged.target]
  decide

/-- A header is prepared exactly below the interval. -/
theorem run_returns_iff (call : WorkblockCall tip) :
    (∃ work, call.run = .ok work) ↔ tip.height.toNat < 144 := by
  simp only [call.run_eq_ok]
  constructor
  · rintro ⟨_, target, assigned, _⟩
    by_contra high
    have height_eq : tip.height = 144 :=
      UInt32.toNat_inj.mp (Nat.le_antisymm unchanged.height (Nat.not_lt.mp high))
    refine chainComputeNextTarget_ne_ok ?_ ?_ unchanged.outside _ _ assigned
    · rw [height_eq]
      decide
    · rw [height_eq]
      decide
  · intro low
    refine ⟨_, tip.target, ?_, rfl⟩
    rw [chainComputeNextTarget, if_pos (UInt32.lt_iff_toNat_lt.mpr low)]

/-- A mined block has the next height and the same target. -/
theorem mined {child : BlockHeader} (step : Mined tip child) :
    child.height.toNat = tip.height.toNat + 1 ∧ Unchanged child := by
  obtain ⟨call, work, returned, filled⟩ := step.prepared
  have low := (unchanged.run_returns_iff call).mp ⟨work, returned⟩
  obtain ⟨target, assigned, rfl⟩ := call.run_eq_ok.mp returned
  have target_eq : child.target = target := congrArg BlockHeader.target filled
  have height_eq : child.height = tip.height + 1 := congrArg BlockHeader.height filled
  have height_toNat : child.height.toNat = tip.height.toNat + 1 := by
    rw [height_eq, UInt32.toNat_add, UInt32.toNat_one]
    omega
  rw [chainComputeNextTarget, if_pos (UInt32.lt_iff_toNat_lt.mpr low)] at assigned
  refine ⟨height_toNat, ?_, by omega⟩
  rw [target_eq, ← Except.ok.inj assigned, unchanged.target]

end Unchanged

/-! ## Whole chains -/

/-- Along a mined chain the state is kept and the heights count on. -/
theorem unchanged_of_isChain {tip : BlockHeader} {headers : List BlockHeader}
    (unchanged : Unchanged tip) (chain : (tip :: headers).IsChain Mined) {i : Nat}
    {header : BlockHeader} (inside : (tip :: headers)[i]? = some header) :
    Unchanged header ∧ header.height.toNat = tip.height.toNat + i := by
  induction headers generalizing tip i with
  | nil =>
      cases i with
      | zero =>
          obtain rfl := Option.some.inj inside
          exact ⟨unchanged, rfl⟩
      | succ i => simp at inside
  | cons child rest ih =>
      cases i with
      | zero =>
          obtain rfl := Option.some.inj inside
          exact ⟨unchanged, rfl⟩
      | succ i =>
          obtain ⟨step, chain⟩ := List.isChain_cons_cons.mp chain
          obtain ⟨height_toNat, unchanged⟩ := unchanged.mined step
          obtain ⟨kept, counted⟩ := ih unchanged chain inside
          exact ⟨kept, by omega⟩

theorem unchanged_genesis (netTime : UInt32) (block : Block) :
    Unchanged (mGenGenesisBlock netTime block).header where
  target := rfl
  height := Nat.zero_le _

/-- There is no mined block above the interval. -/
theorem length_le_of_isChain {tip : BlockHeader} {headers : List BlockHeader}
    (unchanged : Unchanged tip) (chain : (tip :: headers).IsChain Mined) :
    tip.height.toNat + headers.length ≤ 144 := by
  have inside : headers.length < (tip :: headers).length := Nat.lt_succ_self _
  obtain ⟨last, counted⟩ :=
    unchanged_of_isChain unchanged chain (List.getElem?_eq_getElem inside)
  have height := last.height
  omega

/-- A call whose data directory has no other header. -/
def soleCall (tip : BlockHeader) : WorkblockCall tip where
  store :=
    { loadBlock _ := .ok none
      loadBlockHeader _ := .ok (some tip)
      loadNthTxOutput _ _ := none
      blockAtHeight _ := oneTrueRoot }
  highestHead := { height := tip.height, chained := 1, hash := oneTrueRoot }
  highestHeader := tip
  headerA := tip
  header := tip
  nextTarget := tip.target
  height_eq := rfl
  load := rfl

/-- The header prepared there, with nothing filled in. -/
def soleHeader (tip : BlockHeader) : BlockHeader :=
  { tip with
    prevHash := oneTrueRoot
    height := tip.height + 1
    nonce := 0
    version := currentVersion }

theorem mined_soleHeader {tip : BlockHeader} (low : tip.height < chainRecalcInterval) :
    Mined tip (soleHeader tip) where
  prepared := by
    refine ⟨soleCall tip, soleHeader tip, (soleCall tip).run_eq_ok.mpr ⟨tip.target, ?_, rfl⟩, rfl⟩
    rw [chainComputeNextTarget, if_pos low]

/-- Below the interval a mined chain can always be continued. -/
theorem exists_isChain {tip : BlockHeader} (unchanged : Unchanged tip) {n : Nat}
    (room : tip.height.toNat + n ≤ 144) :
    ∃ headers : List BlockHeader, headers.length = n ∧ (tip :: headers).IsChain Mined := by
  induction n generalizing tip with
  | zero => exact ⟨[], rfl, List.isChain_singleton tip⟩
  | succ n ih =>
      have step : Mined tip (soleHeader tip) :=
        mined_soleHeader (UInt32.lt_iff_toNat_lt.mpr (by
          change tip.height.toNat < 144
          omega))
      obtain ⟨height_toNat, continued⟩ := unchanged.mined step
      obtain ⟨headers, rfl, chain⟩ := ih continued (by omega)
      exact ⟨soleHeader tip :: headers, rfl, List.isChain_cons_cons.mpr ⟨step, chain⟩⟩

/-- Whatever the miner builds on the genesis block, with whatever its data directory holds at each
call: every block keeps the initial target and has its position for a height, the proof-of-work test
of every block writes outside its buffer, and the miner prepares another block exactly while there
are fewer than 144 on the genesis block. -/
theorem minedChain_stops (netTime : UInt32) (allocated : Block) (headers : List BlockHeader)
    (chain : ((mGenGenesisBlock netTime allocated).header :: headers).IsChain Mined) :
    (∀ (i : Nat) (header : BlockHeader),
      ((mGenGenesisBlock netTime allocated).header :: headers)[i]? = some header →
        header.height.toNat = i ∧ header.target = chainInitialTarget ∧
        ∀ primitives leftovers txs,
          validateBlockPseudo primitives leftovers { header, txs } = .error .outOfBounds) ∧
    ∀ (tip : BlockHeader),
      ((mGenGenesisBlock netTime allocated).header :: headers)[headers.length]? = some tip →
        ∀ call : WorkblockCall tip, (∃ work, call.run = .ok work) ↔ headers.length < 144 := by
  have start : (mGenGenesisBlock netTime allocated).header.height.toNat = 0 := rfl
  refine ⟨fun i header inside => ?_, fun tip inside call => ?_⟩
  · obtain ⟨kept, counted⟩ :=
      unchanged_of_isChain (unchanged_genesis netTime allocated) chain inside
    rw [start, Nat.zero_add] at counted
    exact ⟨counted, kept.target, fun primitives leftovers _ =>
      validateBlockPseudo_outOfBounds primitives leftovers kept.outside⟩
  · obtain ⟨kept, counted⟩ :=
      unchanged_of_isChain (unchanged_genesis netTime allocated) chain inside
    rw [start, Nat.zero_add] at counted
    rw [kept.run_returns_iff call, counted]

/-- One block on the genesis block. -/
theorem isChain_soleHeader :
    [(mGenGenesisBlock 7 easyBlock).header,
      soleHeader (mGenGenesisBlock 7 easyBlock).header].IsChain Mined :=
  List.isChain_cons_cons.mpr ⟨mined_soleHeader (by decide), List.isChain_singleton _⟩

theorem minedChain_stops_oneBlock :
    (soleHeader (mGenGenesisBlock 7 easyBlock).header).height = 1 ∧
    (∃ work, (soleCall (soleHeader (mGenGenesisBlock 7 easyBlock).header)).run = .ok work) ∧
    validateBlockPseudo permissive zeroLeftovers
      { header := soleHeader (mGenGenesisBlock 7 easyBlock).header, txs := [] } =
        .error .outOfBounds := by
  obtain ⟨states, continued⟩ := minedChain_stops 7 easyBlock _ isChain_soleHeader
  refine ⟨rfl, (continued _ rfl _).mpr (by decide), ?_⟩
  exact (states 1 _ rfl).2.2 permissive zeroLeftovers []

/-- On the genesis block chains of up to 144 mined blocks can be built, and no longer ones. -/
theorem minedChain_length_iff (netTime : UInt32) (allocated : Block) (n : Nat) :
    (∃ headers : List BlockHeader, headers.length = n ∧
      ((mGenGenesisBlock netTime allocated).header :: headers).IsChain Mined) ↔ n ≤ 144 := by
  have genesis := unchanged_genesis netTime allocated
  have start : (mGenGenesisBlock netTime allocated).header.height.toNat = 0 := rfl
  constructor
  · rintro ⟨headers, rfl, chain⟩
    have longest := length_le_of_isChain genesis chain
    omega
  · intro low
    exact exists_isChain genesis (by omega)

end Freecoin
