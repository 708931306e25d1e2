import Mathlib.Data.List.Flatten
import Freecoin.Scans

/-!
# Judging an input

For an input of a block whose ancestors are stored, `validate_tx_input_chain` should return 0 if the
input is the only one that consumes its output and report a double spend otherwise.  It looks at the
inputs of a block up to one position, at the first transaction of a stored block only, and never at
the block of height 0; and the stored blocks have to fit the buffer they are loaded into.  So the
verdict is right, whatever the inputs refer to, for the blocks that leave nothing out of its sight.
-/

namespace Freecoin

open Foundation

/-! ## Stored ancestors -/

/-- The ancestors of a block, nearest first, as a disk holds them: their heights go down to 0. -/
inductive Ancestry (disk : Disk) : Nat → Digest → List Block → Prop
  | genesis (hash : Digest) : Ancestry disk 0 hash []
  | step {height : Nat} {hash : Digest} {block : Block} {ancestors : List Block} :
      block.Counted → blockFile disk hash = some block.bytes →
      block.header.height.toNat = height → Ancestry disk height block.header.prevHash ancestors →
      Ancestry disk (height + 1) hash (block :: ancestors)

/-- A block, and its ancestors on a disk. -/
structure SpendingChain where
  disk : Disk
  loadNthTxOutput : Digest → UInt16 → Option TxOutput
  blockAtHeight : UInt64 → Digest
  parent : Block
  ancestors : List Block
  counted : parent.Counted
  ancestry : Ancestry disk parent.header.height.toNat parent.header.prevHash ancestors

namespace SpendingChain

def store (chain : SpendingChain) : Store :=
  chain.disk.store chain.loadNthTxOutput chain.blockAtHeight

/-- `validate_tx_input_chain` returns a code, with enough budget. -/
def Returns (chain : SpendingChain) (input : TxInput) (code : UInt8) : Prop :=
  ∃ fuel, validateTxInputChain chain.store fuel input chain.parent = .ok code

/-- The output of an input is consumed once in the block and in no ancestor. -/
def OccursOnce (chain : SpendingChain) (input : TxInput) : Prop :=
  spendsAmong input chain.parent.inputs = 1 ∧
    ∀ block ∈ chain.ancestors, spendsAmong input block.inputs = 0

/-- The verdict on an input is right. -/
structure Judged (chain : SpendingChain) (input : TxInput) : Prop where
  zero_iff : chain.Returns input 0 ↔ chain.OccursOnce input
  otherwise : ¬ chain.OccursOnce input → chain.Returns input errTxDoublespend

end SpendingChain

/-! ## The walk along stored ancestors -/

section Walk

variable {disk : Disk} {loadNthTxOutput : Digest → UInt16 → Option TxOutput}
  {blockAtHeight : UInt64 → Digest} {input : TxInput} {ancestors : List Block}

/-- The last ancestor is the first with height 0. -/
theorem Ancestry.nil_of_zero {hash : Digest} (ancestry : Ancestry disk 0 hash ancestors) :
    ancestors = [] := by
  cases ancestry
  rfl

theorem toNat_sub_one_add_one {height : UInt32} (above : height ≠ 0) :
    (height - 1).toNat + 1 = height.toNat := by
  have nonzero : height.toNat ≠ 0 := fun zero => above (UInt32.toNat_inj.mp zero)
  have one : (1 : UInt32).toNat = 1 := rfl
  rw [UInt32.toNat_sub_of_le, one]
  · omega
  · rw [UInt32.le_iff_toNat_le, one]
    omega

/-- A stored block that fits the buffer and, as it is loaded, can be scanned. -/
def Block.LoadedReadable (block : Block) : Prop :=
  block.bytes.length ≤ maxBlockSize ∧ block.loaded.Readable

/-- A stored block that fits the buffer and, as it is loaded, clears the input. -/
def Block.LoadedClears (block : Block) (input : TxInput) : Prop :=
  block.bytes.length ≤ maxBlockSize ∧ block.loaded.Clears 0 input

/-- How the walk goes on from a stored block. -/
theorem walkReturns_iff_of_stored {height : UInt32} {hash : Digest} {block : Block} {code : UInt8}
    (above : height ≠ 0) (counted : block.Counted)
    (stored : blockFile disk hash = some block.bytes) :
    WalkReturns (disk.store loadNthTxOutput blockAtHeight) input height hash code ↔
      (code = errTxDoublespend ∧ block.bytes.length ≤ maxBlockSize ∧
        block.loaded.Scan 0 input 0 0 block.loaded.txs none) ∨
      (block.LoadedClears input ∧
        WalkReturns (disk.store loadNthTxOutput blockAtHeight) input (block.header.height - 1)
          block.header.prevHash code) := by
  by_cases fits : block.bytes.length ≤ maxBlockSize
  · have loaded : (disk.store loadNthTxOutput blockAtHeight).loadBlock hash =
        .ok (some block.loaded) := mIoLoadBlock_eq counted stored fits
    rw [walkReturns_iff_of_loaded above loaded, Block.LoadedClears]
    simp only [fits, true_and]
    exact Iff.rfl
  · refine iff_of_false (fun returns => ?_) ?_
    · have load : ∀ other, (disk.store loadNthTxOutput blockAtHeight).loadBlock hash ≠
          .ok (some other) := fun other load => fits ((mIoLoadBlock_eq_ok counted stored).mp load).1
      cases returns with
      | done => exact above rfl
      | spent _ loaded _ => exact load _ loaded
      | passed _ loaded _ _ => exact load _ loaded
    · rintro (⟨_, small, _⟩ | ⟨⟨small, _⟩, _⟩)
      · exact fits small
      · exact fits small

/-- The course of the walk along stored ancestors: it ends at the block of height 0 and loads every
other one. -/
theorem Ancestry.walk_induction {motive : UInt32 → Digest → List Block → Prop}
    (bottom : ∀ hash block, block.header.height = 0 → motive 0 hash [block])
    (step : ∀ hash block ancestors, block.header.height ≠ 0 → block.Counted →
      blockFile disk hash = some block.bytes →
      motive (block.header.height - 1) block.header.prevHash ancestors →
      motive block.header.height hash (block :: ancestors))
    {height : UInt32} {hash : Digest}
    (ancestry : Ancestry disk (height.toNat + 1) hash ancestors) :
    motive height hash ancestors := by
  induction ancestors generalizing height hash with
  | nil => cases ancestry
  | cons block ancestors ih =>
      cases ancestry with
      | step counted stored consecutive rest =>
          obtain rfl := UInt32.toNat_inj.mp consecutive
          by_cases last : block.header.height = 0
          · rw [last] at rest
            obtain rfl := rest.nil_of_zero
            rw [last]
            exact bottom hash block last
          · rw [← toNat_sub_one_add_one last] at rest
            exact step hash block ancestors last counted stored (ih rest)

variable {height : UInt32} {hash : Digest}
  (ancestry : Ancestry disk (height.toNat + 1) hash ancestors)

include ancestry

/-- The walk returns 0 exactly when every ancestor above height 0 is loaded and clears the input. -/
theorem walkReturns_zero_iff :
    WalkReturns (disk.store loadNthTxOutput blockAtHeight) input height hash 0 ↔
      ∀ block ∈ ancestors, block.header.height ≠ 0 → block.LoadedClears input := by
  refine Ancestry.walk_induction (motive := fun height hash ancestors =>
    WalkReturns (disk.store loadNthTxOutput blockAtHeight) input height hash 0 ↔
      ∀ block ∈ ancestors, block.header.height ≠ 0 → block.LoadedClears input) ?_ ?_ ancestry
  · intro hash block last
    refine iff_of_true (.done hash) fun other member above => ?_
    rw [List.mem_singleton.mp member] at above
    exact absurd last above
  · intro hash block ancestors above counted stored ih
    rw [walkReturns_iff_of_stored above counted stored, List.forall_mem_cons, ← ih]
    constructor
    · rintro (⟨code, _⟩ | ⟨clears, rest⟩)
      · exact absurd code.symm errTxDoublespend_ne_zero
      · exact ⟨fun _ => clears, rest⟩
    · rintro ⟨clears, rest⟩
      exact .inr ⟨clears above, rest⟩

/-- The walk reports a double spend only if one of them shows a spend. -/
theorem exists_shown_of_walkReturns
    (returns : WalkReturns (disk.store loadNthTxOutput blockAtHeight) input height hash
      errTxDoublespend) :
    ∃ block ∈ ancestors, block.header.height ≠ 0 ∧
      0 < spendsAmong input block.loaded.visible := by
  revert returns
  refine Ancestry.walk_induction (motive := fun height hash ancestors =>
    WalkReturns (disk.store loadNthTxOutput blockAtHeight) input height hash errTxDoublespend →
      ∃ block ∈ ancestors, block.header.height ≠ 0 ∧
        0 < spendsAmong input block.loaded.visible) ?_ ?_ ancestry
  · intro hash block _ returns
    exact absurd (walkReturns_zero_height_iff.mp returns) errTxDoublespend_ne_zero
  · intro hash block ancestors above counted stored ih returns
    rcases (walkReturns_iff_of_stored above counted stored).mp returns with
      ⟨_, _, scan⟩ | ⟨_, later⟩
    · exact ⟨block, List.mem_cons_self, above, Block.lt_spendsAmong_of_scan_none scan⟩
    · obtain ⟨other, member, shown⟩ := ih later
      exact ⟨other, List.mem_cons_of_mem _ member, shown⟩

/-- It does if all of them are loaded and readable. -/
theorem walkReturns_of_shown
    (readable : ∀ block ∈ ancestors, block.header.height ≠ 0 → block.LoadedReadable)
    (shown : ∃ block ∈ ancestors, block.header.height ≠ 0 ∧
      0 < spendsAmong input block.loaded.visible) :
    WalkReturns (disk.store loadNthTxOutput blockAtHeight) input height hash errTxDoublespend := by
  revert readable shown
  refine Ancestry.walk_induction (motive := fun height hash ancestors =>
    (∀ block ∈ ancestors, block.header.height ≠ 0 → block.LoadedReadable) →
      (∃ block ∈ ancestors, block.header.height ≠ 0 ∧
        0 < spendsAmong input block.loaded.visible) →
      WalkReturns (disk.store loadNthTxOutput blockAtHeight) input height hash errTxDoublespend)
    ?_ ?_ ancestry
  · rintro hash block last - ⟨spender, member, above, _⟩
    rw [List.mem_singleton.mp member] at above
    exact absurd last above
  · rintro hash block ancestors above counted stored ih readable
      ⟨spender, member, spenderAbove, spends⟩
    obtain ⟨fits, here⟩ := readable block List.mem_cons_self above
    rw [walkReturns_iff_of_stored above counted stored]
    by_cases shows : 0 < spendsAmong input block.loaded.visible
    · exact .inl ⟨rfl, fits, Block.scan_none_of_readable here shows⟩
    · refine .inr ⟨⟨fits, here, Nat.not_lt.mp shows⟩, ih (fun other later =>
        readable other (List.mem_cons_of_mem _ later)) ⟨spender, ?_, spenderAbove, spends⟩⟩
      rcases List.mem_cons.mp member with rfl | later
      · exact absurd spends shows
      · exact later

end Walk

namespace SpendingChain

/-- Every block the function scans can be read. -/
def Readable (chain : SpendingChain) : Prop :=
  chain.parent.Readable ∧
    ∀ block ∈ chain.ancestors, block.header.height ≠ 0 → block.LoadedReadable

/-- A second spend is where the function looks. -/
def Shown (chain : SpendingChain) (input : TxInput) : Prop :=
  1 < spendsAmong input chain.parent.visible ∨
    ∃ block ∈ chain.ancestors, block.header.height ≠ 0 ∧
      0 < spendsAmong input block.loaded.visible

section Verdict

variable {chain : SpendingChain} {input : TxInput}

theorem returns_iff {code : UInt8} :
    chain.Returns input code ↔ InputCheckReturns chain.store input chain.parent code :=
  exists_validateTxInputChain_iff chain.counted.txs
    (chain.disk.store_counted chain.loadNthTxOutput chain.blockAtHeight)

/-- The function does not return two codes. -/
theorem Returns.unique {code other : UInt8} (returns : chain.Returns input code)
    (others : chain.Returns input other) : code = other := by
  obtain ⟨fuel, returned⟩ := others
  rcases validateTxInputChain_of_returns chain.counted.txs
    (chain.disk.store_counted chain.loadNthTxOutput chain.blockAtHeight)
    (returns_iff.mp returns) fuel with ok | out
  · exact Except.ok.inj (ok.symm.trans returned)
  · cases out.symm.trans returned

theorem returns_zero_iff_passes :
    chain.Returns input 0 ↔ chain.parent.Passes chain.store input :=
  returns_iff.trans inputCheckReturns_zero_iff

theorem returns_doublespend_iff_catches :
    chain.Returns input errTxDoublespend ↔ chain.parent.Catches chain.store input :=
  returns_iff.trans inputCheckReturns_doublespend_iff

/-- The verdict on one input is right exactly when the only spend passes, or another is caught. -/
theorem judged_iff_seen : chain.Judged input ↔
    (chain.OccursOnce input ∧ chain.parent.Passes chain.store input) ∨
      (¬ chain.OccursOnce input ∧ chain.parent.Catches chain.store input) := by
  rw [← returns_zero_iff_passes, ← returns_doublespend_iff_catches]
  constructor
  · intro judged
    by_cases once : chain.OccursOnce input
    · exact .inl ⟨once, judged.zero_iff.mpr once⟩
    · exact .inr ⟨once, judged.otherwise once⟩
  · rintro (⟨once, returned⟩ | ⟨twice, returned⟩)
    · exact ⟨iff_of_true returned once, fun twice => absurd once twice⟩
    · refine ⟨iff_of_false (fun zero => ?_) twice, fun _ => returned⟩
      exact absurd (zero.unique returned).symm errTxDoublespend_ne_zero

variable (above : chain.parent.header.height ≠ 0)

include above

theorem ancestry_above : Ancestry chain.disk ((chain.parent.header.height - 1).toNat + 1)
    chain.parent.header.prevHash chain.ancestors := by
  rw [toNat_sub_one_add_one above]
  exact chain.ancestry

/-- The function returns 0 exactly when it can read everything and there is no second spend where it
looks. -/
theorem returns_zero_iff : chain.Returns input 0 ↔ chain.Readable ∧ ¬ chain.Shown input := by
  rw [returns_iff, inputCheckReturns_iff]
  constructor
  · rintro (⟨code, _⟩ | ⟨⟨readable, few⟩, walk⟩)
    · exact absurd code.symm errTxDoublespend_ne_zero
    · have clears := (walkReturns_zero_iff (ancestry_above above)).mp walk
      refine ⟨⟨readable, fun block member high => ?_⟩, ?_⟩
      · obtain ⟨fits, others, _⟩ := clears block member high
        exact ⟨fits, others⟩
      · rintro (many | ⟨block, member, high, shown⟩)
        · exact absurd few (Nat.not_le.mpr many)
        · exact absurd (clears block member high).2.2 (Nat.not_le.mpr shown)
  · rintro ⟨⟨readable, others⟩, hidden⟩
    refine .inr ⟨⟨readable, Nat.not_lt.mp fun many => hidden (.inl many)⟩, ?_⟩
    refine (walkReturns_zero_iff (ancestry_above above)).mpr fun block member high => ?_
    obtain ⟨fits, reads⟩ := others block member high
    exact ⟨fits, reads, Nat.not_lt.mp fun shown =>
      hidden (.inr ⟨block, member, high, shown⟩)⟩

theorem shown_of_returns (returns : chain.Returns input errTxDoublespend) : chain.Shown input := by
  rw [returns_iff, inputCheckReturns_iff] at returns
  rcases returns with ⟨_, scan⟩ | ⟨_, walk⟩
  · exact .inl (Block.lt_spendsAmong_of_scan_none scan)
  · exact .inr (exists_shown_of_walkReturns (ancestry_above above) walk)

theorem returns_of_shown (readable : chain.Readable) (shown : chain.Shown input) :
    chain.Returns input errTxDoublespend := by
  rw [returns_iff, inputCheckReturns_iff]
  by_cases many : 1 < spendsAmong input chain.parent.visible
  · exact .inl ⟨rfl, Block.scan_none_of_readable readable.1 many⟩
  · rcases shown with here | there
    · exact absurd here many
    · exact .inr ⟨⟨readable.1, Nat.not_lt.mp many⟩,
        walkReturns_of_shown (ancestry_above above) readable.2 there⟩

/-- Where everything can be read, the verdict is right if a second spend is always seen. -/
theorem judged_of_readable (readable : chain.Readable)
    (seen : chain.Shown input ↔ ¬ chain.OccursOnce input) : chain.Judged input where
  zero_iff := by
    rw [returns_zero_iff above, seen, not_not]
    exact and_iff_right readable
  otherwise twice := returns_of_shown above readable (seen.mpr twice)

end Verdict

end SpendingChain

/-! ## Blocks that leave nothing out of sight -/

theorem spendsAmong_pos_iff {input : TxInput} {inputs : List TxInput} :
    0 < spendsAmong input inputs ↔ ∃ other ∈ inputs, other.SameReference input := by
  rw [spendsAmong, List.countP_pos_iff]
  simp only [decide_eq_true_eq]

theorem spendsAmong_pos_of_mem {input : TxInput} {inputs : List TxInput}
    (member : input ∈ inputs) : 0 < spendsAmong input inputs :=
  spendsAmong_pos_iff.mpr ⟨input, member, rfl, rfl⟩

namespace Block

/-- All transactions have the same number of inputs, and there are more transactions than that. -/
def Level (block : Block) : Prop :=
  ∃ count < block.layout.length, ∀ other ∈ block.layout, other = count

/-- The block has one input, and not in its first transaction. -/
def Lone (block : Block) : Prop :=
  block.layout.head? = some 0 ∧ block.layout.sum = 1

/-- Only the first transaction has inputs, and fewer of them than there are transactions. -/
def Fronted (block : Block) : Prop :=
  ∃ count counts, block.layout = count :: counts ∧ count ≤ counts.length ∧
    ∀ other ∈ counts, other = 0

section Sight

variable {block : Block}

theorem spendsAmong_visible_le (block : Block) (input : TxInput) :
    spendsAmong input block.visible ≤ spendsAmong input block.inputs :=
  List.Sublist.countP_le (List.Sublist.flatMap_right _ fun _ _ => List.take_sublist _ _)

theorem loaded_txs_of_cons {first : Tx} {others : List Tx} (txs_eq : block.txs = first :: others) :
    block.loaded.txs = List.replicate (others.length + 1) first := by
  simp [loaded, txs_eq]

theorem mem_loaded_inputs_iff {first : Tx} {others : List Tx}
    (txs_eq : block.txs = first :: others) (input : TxInput) :
    input ∈ block.loaded.inputs ↔ input ∈ first.ins := by
  rw [inputs, loaded_txs_of_cons txs_eq, List.mem_flatMap]
  simp

variable (counted : block.Counted)

include counted

theorem loaded_counted : block.loaded.Counted := by
  have count : block.loaded.header.txCount.toNat = block.txs.length := counted.txs
  cases txs_eq : block.txs with
  | nil =>
      have empty : block.loaded.txs = [] := by simp [loaded, txs_eq]
      refine ⟨by rw [count, txs_eq, empty], fun tx member => ?_⟩
      rw [empty] at member
      cases member
  | cons first others =>
      refine ⟨?_, fun tx member => ?_⟩
      · rw [count, loaded_txs_of_cons txs_eq, txs_eq, List.length_replicate, List.length_cons]
      · rw [loaded_txs_of_cons txs_eq] at member
        obtain rfl := List.eq_of_mem_replicate member
        exact counted.tx tx (by simp [txs_eq])

theorem Level.readable (level : block.Level) (short : block.txs.length < 2 ^ 31) :
    block.Readable ∧ block.visible = block.inputs := by
  obtain ⟨count, inside, all⟩ := level
  have stops : block.StopsAt count :=
    ⟨List.getElem?_eq_some_iff.mpr ⟨inside, all _ (List.getElem_mem inside)⟩,
      fun other member => (all other member).ge⟩
  refine ⟨readable_of_stopsAt counted stops short, ?_⟩
  rw [visible, scanBound_eq_of_stopsAt counted stops]
  refine List.flatMap_congr fun tx member => ?_
  rw [← all _ (List.mem_map_of_mem member), List.take_length]

theorem Lone.readable (lone : block.Lone) (short : block.txs.length < 2 ^ 31) :
    block.Readable := by
  have stops : block.StopsAt 0 := by
    refine ⟨?_, fun _ _ => Nat.zero_le _⟩
    rw [← List.head?_eq_getElem?]
    exact lone.1
  exact readable_of_stopsAt counted stops short

/-- A level block, and one with a lone input, show a second spend of every input they have. -/
theorem shows_iff_of_level_or_lone (seen : block.Level ∨ block.Lone)
    (short : block.txs.length < 2 ^ 31) {input : TxInput} (member : input ∈ block.inputs) :
    1 < spendsAmong input block.visible ↔ spendsAmong input block.inputs ≠ 1 := by
  have present := spendsAmong_pos_of_mem member
  rcases seen with level | lone
  · rw [(level.readable counted short).2]
    omega
  · have fewer : spendsAmong input block.inputs ≤ 1 :=
      lone.2 ▸ block.length_inputs ▸ List.countP_le_length
    have shown := block.spendsAmong_visible_le input
    omega

/-- A stored block with inputs in its first transaction only shows every spend. -/
theorem loaded_sees (seen : block.layout = [] ∨ block.Fronted)
    (short : block.txs.length < 2 ^ 31) :
    block.loaded.Readable ∧ ∀ input,
      0 < spendsAmong input block.loaded.visible ↔ spendsAmong input block.inputs ≠ 0 := by
  rcases seen with empty | ⟨count, counts, layout_eq, fewer, bare⟩
  · have nothing : block.txs = [] := List.map_eq_nil_iff.mp empty
    have loaded_nil : block.loaded.txs = [] := by simp [loaded, nothing]
    refine ⟨⟨by simp [loaded_nil], fun tx member => ?_⟩, fun input => ?_⟩
    · rw [loaded_nil] at member
      cases member
    · rw [visible, inputs, loaded_nil, nothing]
      simp
  · obtain ⟨first, others, txs_eq, rfl, rfl⟩ := List.map_eq_cons_iff.mp layout_eq
    rw [List.length_map] at fewer
    have level : block.loaded.Level := by
      refine ⟨first.ins.length, ?_, fun other member => ?_⟩
      · rw [layout, loaded_txs_of_cons txs_eq, List.length_map, List.length_replicate]
        exact Nat.lt_succ_of_le fewer
      · rw [layout, loaded_txs_of_cons txs_eq, List.map_replicate] at member
        exact List.eq_of_mem_replicate member
    have loaded_short : block.loaded.txs.length < 2 ^ 31 := by
      rw [loaded_txs_of_cons txs_eq, List.length_replicate]
      rwa [txs_eq, List.length_cons] at short
    obtain ⟨readable, all⟩ := level.readable (loaded_counted counted) loaded_short
    have inputs_eq : block.inputs = first.ins := by
      have nothing : others.flatMap Tx.ins = [] := by
        refine List.flatMap_eq_nil_iff.mpr fun tx member => ?_
        exact List.length_eq_zero_iff.mp (bare _ (List.mem_map_of_mem member))
      rw [inputs, txs_eq, List.flatMap_cons, nothing, List.append_nil]
    refine ⟨readable, fun input => ?_⟩
    rw [all, inputs_eq, spendsAmong_pos_iff, ← Nat.pos_iff_ne_zero, spendsAmong_pos_iff]
    simp only [mem_loaded_inputs_iff txs_eq]

/-- A loaded block is readable only if there are more transactions than inputs in the first. -/
theorem count_le_of_loaded_readable {count : Nat} {counts : List Nat}
    (layout_eq : block.layout = count :: counts) (readable : block.loaded.Readable) :
    count ≤ counts.length := by
  obtain ⟨first, others, txs_eq, rfl, rfl⟩ := List.map_eq_cons_iff.mp layout_eq
  have nonempty : block.loaded.txs ≠ [] := by
    rw [loaded_txs_of_cons txs_eq]
    exact List.cons_ne_nil _ _
  obtain ⟨inside, here⟩ := List.getElem?_eq_some_iff.mp
    (stopsAt_of_readable (loaded_counted counted) readable nonempty).1
  simp only [layout, loaded_txs_of_cons txs_eq, List.map_replicate, List.getElem_replicate] at here
  rw [layout, loaded_txs_of_cons txs_eq, List.length_map, List.length_replicate, ← here] at inside
  rw [List.length_map]
  exact Nat.le_of_lt_succ inside

end Sight

end Block

namespace SpendingChain

/-- The function sees every input of the block and of its ancestors. -/
structure Searchable (chain : SpendingChain) : Prop where
  above : chain.parent.header.height ≠ 0
  short : chain.parent.layout.length < 2 ^ 31
  fits : ∀ block ∈ chain.ancestors, block.header.height ≠ 0 → block.bytes.length ≤ maxBlockSize
  parent : chain.parent.Level ∨ chain.parent.Lone
  stored : ∀ block ∈ chain.ancestors, block.header.height ≠ 0 → block.layout = [] ∨ block.Fronted
  genesis : ∀ block ∈ chain.ancestors, block.header.height = 0 → block.layout.sum = 0

theorem counted_of_mem_ancestors {disk : Disk} {height : Nat} {hash : Digest}
    {ancestors : List Block} (ancestry : Ancestry disk height hash ancestors) :
    ∀ block ∈ ancestors, block.Counted := by
  induction ancestry with
  | genesis => exact fun _ member => absurd member List.not_mem_nil
  | step counted _ _ _ ih => exact List.forall_mem_cons.mpr ⟨counted, ih⟩

theorem judged_of_searchable {chain : SpendingChain} (searchable : chain.Searchable)
    {input : TxInput} (member : input ∈ chain.parent.inputs) : chain.Judged input := by
  have short : chain.parent.txs.length < 2 ^ 31 := by
    have count := searchable.short
    rwa [Block.layout, List.length_map] at count
  have sees := fun block blockMember above =>
    Block.loaded_sees (counted_of_mem_ancestors chain.ancestry block blockMember)
      (searchable.stored block blockMember above)
      (Block.length_txs_lt (searchable.fits block blockMember above))
  have readable : chain.Readable := by
    refine ⟨?_, fun block blockMember above =>
      ⟨searchable.fits block blockMember above, (sees block blockMember above).1⟩⟩
    rcases searchable.parent with level | lone
    · exact (level.readable chain.counted short).1
    · exact lone.readable chain.counted short
  refine judged_of_readable searchable.above readable ?_
  rw [OccursOnce, not_and_or, Shown,
    Block.shows_iff_of_level_or_lone chain.counted searchable.parent short member]
  refine or_congr Iff.rfl ?_
  push Not
  constructor
  · rintro ⟨block, blockMember, above, shown⟩
    exact ⟨block, blockMember, ((sees block blockMember above).2 input).mp shown⟩
  · rintro ⟨block, blockMember, spent⟩
    have above : block.header.height ≠ 0 := by
      intro bottom
      have empty := searchable.genesis block blockMember bottom
      rw [← block.length_inputs, List.length_eq_zero_iff] at empty
      rw [empty] at spent
      exact spent rfl
    exact ⟨block, blockMember, above, ((sees block blockMember above).2 input).mpr spent⟩

end SpendingChain

end Freecoin
