import Freecoin.Respends
import Freecoin.SpentInputs

/-!
# What the verdict leaves out

Blocks with chosen inputs, stacked to a chain of given heights, layouts and sizes.  By choosing
which inputs consume one output, a chain that has an input out of sight becomes one that is
misjudged.
-/

namespace Freecoin

open Foundation

/-! ## Chains of any layout -/

/-- A transaction with other inputs. -/
def Tx.withInputs (tx : Tx) (ins : List TxInput) : Tx :=
  { tx with header := { tx.header with inCount := .ofNat ins.length }, ins }

/-- Transactions with other inputs. -/
def relabelTxs (txs : List Tx) (content : List (List TxInput)) : List Tx :=
  (txs.zip content).map fun pair => pair.1.withInputs pair.2

/-- The digest of the topmost of some blocks. -/
def topHash (blocks : List Block) : Digest :=
  blocks.head?.elim oneTrueRoot (blockComputeHash leadingBytes)

/-- A block on top of others, with the given transactions. -/
def stackBlock (below : List Block) (txs : List Tx) : Block where
  header :=
    { version := 2, time := .ofNat below.length, height := .ofNat below.length
      prevHash := topHash below, merkleRoot := oneTrueRoot
      target := { mantissa := 0, exponent := 1 }, nonce := 0, txCount := .ofNat txs.length }
  txs := txs

/-- Such blocks on top of each other, the topmost first. -/
def stackBlocks : List (List Tx) → List Block
  | [] => []
  | txs :: contents => stackBlock (stackBlocks contents) txs :: stackBlocks contents

/-- The counts of a block with the given transactions fit the fields of its headers. -/
def ContentFits (txs : List Tx) : Prop := txs.length < 2 ^ 32 ∧ ∀ tx ∈ txs, tx.Counted

theorem length_stackBlocks (contents : List (List Tx)) :
    (stackBlocks contents).length = contents.length := by
  induction contents with
  | nil => rfl
  | cons txs contents ih => rw [stackBlocks, List.length_cons, List.length_cons, ih]

theorem stackBlock_counted {txs : List Tx} (fits : ContentFits txs) (below : List Block) :
    (stackBlock below txs).Counted where
  txs := UInt32.toNat_ofNat_of_lt' fits.1
  tx := fits.2

section Stack

variable {contents : List (List Tx)} (short : contents.length ≤ 2 ^ 32)

include short

theorem time_lt_of_mem_stackBlocks {block : Block} (member : block ∈ stackBlocks contents) :
    block.header.time.toNat < contents.length := by
  induction contents with
  | nil => cases member
  | cons content contents ih =>
      rw [List.length_cons] at short ⊢
      rw [stackBlocks] at member
      rcases List.mem_cons.mp member with rfl | below
      · change (UInt32.ofNat (stackBlocks contents).length).toNat < _
        rw [length_stackBlocks, UInt32.toNat_ofNat_of_lt' short]
        exact Nat.lt_succ_self _
      · exact Nat.lt_succ_of_lt (ih (Nat.le_of_succ_le short) below)

theorem pairwise_time_ne_stackBlocks :
    (stackBlocks contents).Pairwise fun left right => left.header.time ≠ right.header.time := by
  induction contents with
  | nil => exact List.Pairwise.nil
  | cons content contents ih =>
      rw [List.length_cons] at short
      refine List.pairwise_cons.mpr ⟨fun block below same => ?_, ih (Nat.le_of_succ_le short)⟩
      have earlier := time_lt_of_mem_stackBlocks (Nat.le_of_succ_le short) below
      rw [← same] at earlier
      change (UInt32.ofNat (stackBlocks contents).length).toNat < _ at earlier
      rw [length_stackBlocks, UInt32.toNat_ofNat_of_lt' short] at earlier
      exact Nat.lt_irrefl _ earlier

theorem pairwise_hash_ne_stackBlocks :
    (stackBlocks contents).Pairwise fun left right =>
      blockComputeHash leadingBytes left ≠ blockComputeHash leadingBytes right :=
  (pairwise_time_ne_stackBlocks short).imp fun apart same => apart (time_eq_of_leadingBytes same)

end Stack

/-- The ancestors on such a stack, on a disk that holds more blocks. -/
theorem ancestry_stackBlocks {kept : List Block} {contents : List (List Tx)}
    (different : kept.Pairwise fun left right =>
      blockComputeHash leadingBytes left ≠ blockComputeHash leadingBytes right)
    (among : ∀ block ∈ stackBlocks contents, block ∈ kept) (short : contents.length ≤ 2 ^ 32)
    (fits : ∀ content ∈ contents, ContentFits content) :
    Ancestry (keepBlocks leadingBytes kept) contents.length (topHash (stackBlocks contents))
      (stackBlocks contents) := by
  induction contents with
  | nil => exact .genesis _
  | cons content contents ih =>
      rw [List.length_cons] at short
      refine .step (stackBlock_counted (fits _ List.mem_cons_self) _)
        (blockFile_keepBlocks different (among _ List.mem_cons_self)) ?_
        (ih (fun block below => among block (List.mem_cons_of_mem _ below))
          (Nat.le_of_succ_le short) fun other later => fits other (List.mem_cons_of_mem _ later))
      change (UInt32.ofNat (stackBlocks contents).length).toNat = _
      rw [length_stackBlocks, UInt32.toNat_ofNat_of_lt' short]

theorem Ancestry.length_eq {disk : Disk} {height : Nat} {hash : Digest} {ancestors : List Block}
    (ancestry : Ancestry disk height hash ancestors) : ancestors.length = height := by
  induction ancestry with
  | genesis => rfl
  | step _ _ _ _ ih => rw [List.length_cons, ih]

/-- A stack as high as some ancestors has their heights. -/
theorem stackBlocks_view {disk : Disk} {height : Nat} {hash : Digest} {ancestors : List Block}
    (ancestry : Ancestry disk height hash ancestors) (content : Block → List Tx) :
    (stackBlocks (ancestors.map content)).map (fun block => (block.header.height, block.txs)) =
      ancestors.map fun block => (block.header.height, content block) := by
  induction ancestry with
  | genesis => rfl
  | @step height _ block ancestors _ _ consecutive rest ih =>
      have below : (stackBlocks (ancestors.map content)).length = height := by
        rw [length_stackBlocks, List.length_map, rest.length_eq]
      have same : UInt32.ofNat height = block.header.height := by
        rw [← consecutive, UInt32.ofNat_toNat]
      rw [List.map_cons, stackBlocks, List.map_cons, List.map_cons, ih]
      change (UInt32.ofNat (stackBlocks (ancestors.map content)).length, _) :: _ = _
      rw [below, same]
      rfl

/-! ### Other inputs in the same places -/

theorem layout_of_content {block : Block} {content : List (List TxInput)}
    (ins_eq : block.txs.map Tx.ins = content) : block.layout = content.map List.length := by
  rw [Block.layout, ← ins_eq, List.map_map]
  rfl

theorem inputs_of_content {block : Block} {content : List (List TxInput)}
    (ins_eq : block.txs.map Tx.ins = content) : block.inputs = content.flatten := by
  rw [Block.inputs, ← ins_eq, List.flatMap_def]

theorem visible_of_content {block : Block} {content : List (List TxInput)}
    (ins_eq : block.txs.map Tx.ins = content) :
    block.visible = content.flatMap (List.take block.scanBound) := by
  rw [Block.visible, ← ins_eq, List.flatMap_map]

section Relabelled

variable {txs : List Tx} {content : List (List TxInput)}

theorem map_ins_relabelTxs (same : content.map List.length = txs.map fun tx => tx.ins.length) :
    (relabelTxs txs content).map Tx.ins = content := by
  have length_eq : content.length = txs.length := by
    rw [← List.length_map (f := List.length), same, List.length_map]
  rw [relabelTxs, List.map_map]
  exact List.map_snd_zip length_eq.le

/-- Other inputs take as much room. -/
theorem map_length_relabelTxs (same : content.map List.length = txs.map fun tx => tx.ins.length) :
    (relabelTxs txs content).map (fun tx => tx.bytes.length) =
      txs.map fun tx => tx.bytes.length := by
  induction txs generalizing content with
  | nil => rfl
  | cons tx txs ih =>
      obtain ⟨ins, content, rfl⟩ := List.exists_cons_of_ne_nil (l := content) (by
        rintro rfl
        cases same)
      obtain ⟨first, others⟩ := List.cons.inj same
      rw [relabelTxs, List.zip_cons_cons, List.map_cons, List.map_cons, List.map_cons]
      congr 1
      · rw [Tx.length_bytes, Tx.length_bytes, Tx.withInputs, first]
      · exact ih others

theorem contentFits_relabelTxs {block : Block} (counted : block.Counted)
    (same : content.map List.length = block.layout) :
    ContentFits (relabelTxs block.txs content) := by
  refine ⟨?_, fun tx member => ?_⟩
  · have count := block.header.txCount.toNat_lt
    rw [counted.txs] at count
    rw [relabelTxs, List.length_map, List.length_zip]
    omega
  · obtain ⟨⟨old, ins⟩, pair, rfl⟩ := List.mem_map.mp member
    have oldMember := List.of_mem_zip pair
    have counts : ins.length ∈ block.layout := same ▸ List.mem_map_of_mem oldMember.2
    obtain ⟨other, otherMember, length_eq⟩ := List.mem_map.mp counts
    refine ⟨UInt16.toNat_ofNat_of_lt' ?_, (counted.tx old oldMember.1).outs⟩
    rw [← length_eq, ← (counted.tx other otherMember).ins]
    exact other.header.inCount.toNat_lt

end Relabelled

/-- The height of a block, how many inputs each of its transactions has, and the size of its
file. -/
def Block.profile (block : Block) : UInt32 × List Nat × Nat :=
  (block.header.height, block.layout, block.bytes.length)

namespace SpendingChain

/-- A block with the given transactions on top of its ancestors. -/
def stackChain (loadNthTxOutput : Digest → UInt16 → Option TxOutput)
    (blockAtHeight : UInt64 → Digest) (top : List Tx) (below : List (List Tx))
    (top_fits : ContentFits top)
    (below_fits : ∀ content ∈ below, ContentFits content) (short : below.length < 2 ^ 32) :
    SpendingChain where
  disk := keepBlocks leadingBytes (stackBlocks below)
  loadNthTxOutput := loadNthTxOutput
  blockAtHeight := blockAtHeight
  parent := stackBlock (stackBlocks below) top
  ancestors := stackBlocks below
  counted := stackBlock_counted top_fits _
  ancestry := by
    change Ancestry _ (UInt32.ofNat (stackBlocks below).length).toNat (topHash _) _
    rw [length_stackBlocks, UInt32.toNat_ofNat_of_lt' short]
    exact ancestry_stackBlocks (pairwise_hash_ne_stackBlocks short.le) (fun _ member => member)
      short.le below_fits

/-- The heights, layouts and sizes of a block and its ancestors. -/
def profiles (chain : SpendingChain) : List (UInt32 × List Nat × Nat) :=
  (chain.parent :: chain.ancestors).map Block.profile

/-- Inputs for a block and its ancestors, as many as they have. -/
structure Labels (chain : SpendingChain) where
  top : List (List TxInput)
  below : Block → List (List TxInput)
  top_layout : top.map List.length = chain.parent.layout
  below_layout : ∀ block ∈ chain.ancestors, (below block).map List.length = block.layout

section Relabel

variable {chain : SpendingChain} (labels : chain.Labels)

/-- The transactions of a stored block with their new inputs. -/
def Labels.txs (block : Block) : List Tx := relabelTxs block.txs (labels.below block)

theorem Labels.short : (chain.ancestors.map labels.txs).length < 2 ^ 32 := by
  rw [List.length_map, chain.ancestry.length_eq]
  exact chain.parent.header.height.toNat_lt

theorem Labels.below_fits : ∀ content ∈ chain.ancestors.map labels.txs, ContentFits content := by
  intro content member
  obtain ⟨block, blockMember, rfl⟩ := List.mem_map.mp member
  exact contentFits_relabelTxs (counted_of_mem_ancestors chain.ancestry block blockMember)
    (labels.below_layout block blockMember)

/-- A chain of the same profiles with the given inputs. -/
def relabel : SpendingChain :=
  stackChain chain.loadNthTxOutput chain.blockAtHeight (relabelTxs chain.parent.txs labels.top)
    (chain.ancestors.map labels.txs) (contentFits_relabelTxs chain.counted labels.top_layout)
    labels.below_fits labels.short

theorem relabel_height : (relabel labels).parent.header.height = chain.parent.header.height := by
  change UInt32.ofNat (stackBlocks (chain.ancestors.map labels.txs)).length = _
  rw [length_stackBlocks, List.length_map, chain.ancestry.length_eq, UInt32.ofNat_toNat]

theorem relabel_content : (relabel labels).parent.txs.map Tx.ins = labels.top :=
  map_ins_relabelTxs labels.top_layout

theorem relabel_layout : (relabel labels).parent.layout = chain.parent.layout :=
  (layout_of_content (relabel_content labels)).trans labels.top_layout

theorem relabel_view :
    (relabel labels).ancestors.map (fun block => (block.header.height, block.txs)) =
      chain.ancestors.map fun block => (block.header.height, labels.txs block) :=
  stackBlocks_view chain.ancestry labels.txs

/-- What a block has of the one whose inputs it replaces. -/
structure Relabels (labels : chain.Labels) (old block : Block) : Prop where
  height : old.header.height = block.header.height
  content : block.txs.map Tx.ins = labels.below old
  size : block.bytes.length = old.bytes.length

theorem relabels_of_view {old block : Block} (member : old ∈ chain.ancestors)
    (height : block.header.height = old.header.height) (txs : block.txs = labels.txs old) :
    Relabels labels old block := by
  have same := labels.below_layout old member
  refine ⟨height.symm, txs ▸ map_ins_relabelTxs same, ?_⟩
  rw [Block.length_bytes, Block.length_bytes, txs, Labels.txs, map_length_relabelTxs same]

theorem exists_of_mem_relabel {block : Block} (member : block ∈ (relabel labels).ancestors) :
    ∃ old ∈ chain.ancestors, Relabels labels old block := by
  have viewed := List.mem_map_of_mem (f := fun block => (block.header.height, block.txs)) member
  rw [relabel_view] at viewed
  obtain ⟨old, oldMember, same⟩ := List.mem_map.mp viewed
  obtain ⟨height, txs⟩ := Prod.mk.inj same
  exact ⟨old, oldMember, relabels_of_view labels oldMember height.symm txs.symm⟩

theorem exists_mem_relabel {old : Block} (member : old ∈ chain.ancestors) :
    ∃ block ∈ (relabel labels).ancestors, Relabels labels old block := by
  have viewed := List.mem_map_of_mem
    (f := fun block => (block.header.height, labels.txs block)) member
  rw [← relabel_view] at viewed
  obtain ⟨block, blockMember, same⟩ := List.mem_map.mp viewed
  obtain ⟨height, txs⟩ := Prod.mk.inj same
  exact ⟨block, blockMember, relabels_of_view labels member height txs⟩

theorem relabel_profiles : (relabel labels).profiles = chain.profiles := by
  have split : ∀ blocks : List Block, blocks.map Block.profile =
      (blocks.map fun block => (block.header.height, block.txs)).map fun view =>
        (view.1, view.2.map (fun tx => tx.ins.length),
          sizeBlockHeader + (view.2.map fun tx => tx.bytes.length).sum) := by
    intro blocks
    rw [List.map_map]
    refine List.map_congr_left fun block _ => ?_
    rw [Block.profile, Block.length_bytes]
    rfl
  have size : (relabel labels).parent.bytes.length = chain.parent.bytes.length := by
    rw [Block.length_bytes, Block.length_bytes]
    exact congrArg (fun sizes : List Nat => sizeBlockHeader + sizes.sum)
      (map_length_relabelTxs labels.top_layout)
  rw [profiles, profiles, List.map_cons, List.map_cons, Block.profile, relabel_height,
    relabel_layout, size, split, relabel_view, List.map_map, ← Block.profile]
  congr 1
  refine List.map_congr_left fun block member => ?_
  have same := labels.below_layout block member
  have counts : (labels.txs block).map (fun tx => tx.ins.length) = block.layout := by
    rw [← same, ← map_ins_relabelTxs same, List.map_map]
    rfl
  rw [Block.profile, Block.length_bytes, ← map_length_relabelTxs same, ← counts]
  rfl

end Relabel

end SpendingChain

/-! ## Inputs out of sight -/

/-- An input that consumes another output than `respentInput`. -/
def otherInput : TxInput := { respentInput with outIndex := 1 }

@[simp] theorem spendsAmong_replicate_respentInput (count : Nat) :
    spendsAmong respentInput (List.replicate count respentInput) = count := by
  rw [spendsAmong, List.countP_replicate]
  exact if_pos (by decide)

@[simp] theorem spendsAmong_replicate_otherInput (count : Nat) :
    spendsAmong respentInput (List.replicate count otherInput) = 0 := by
  rw [spendsAmong, List.countP_replicate]
  exact if_neg (by decide)

theorem spendsAmong_flatten (input : TxInput) (content : List (List TxInput)) :
    spendsAmong input content.flatten = (content.map (spendsAmong input)).sum :=
  List.countP_flatten

/-- Every input consumes the same output. -/
def constantContent (input : TxInput) (layout : List Nat) : List (List TxInput) :=
  layout.map fun count => List.replicate count input

theorem constantContent_layout (input : TxInput) (layout : List Nat) :
    (constantContent input layout).map List.length = layout := by
  rw [constantContent, List.map_map]
  refine (List.map_congr_left fun count _ => ?_).trans (List.map_id layout)
  exact List.length_replicate

theorem spendsAmong_constantContent (layout : List Nat) :
    spendsAmong respentInput (constantContent respentInput layout).flatten = layout.sum := by
  rw [spendsAmong_flatten, constantContent, List.map_map]
  congr 1
  refine (List.map_congr_left fun count _ => ?_).trans (List.map_id layout)
  exact spendsAmong_replicate_respentInput count

theorem spendsAmong_constantContent_other (layout : List Nat) :
    spendsAmong respentInput (constantContent otherInput layout).flatten = 0 := by
  rw [spendsAmong_flatten, constantContent, List.map_map, List.sum_eq_zero_iff_forall_eq_nat]
  intro count member
  obtain ⟨_, _, rfl⟩ := List.mem_map.mp member
  exact spendsAmong_replicate_otherInput _

theorem mem_constantContent {input : TxInput} {layout : List Nat} (some_input : layout.sum ≠ 0) :
    input ∈ (constantContent input layout).flatten := by
  induction layout with
  | nil => exact absurd rfl some_input
  | cons count layout ih =>
      cases count with
      | zero =>
          rw [List.sum_cons, Nat.zero_add] at some_input
          exact ih some_input
      | succ count => simp [constantContent]

/-- Only the first input of all consumes the output. -/
def markFirst : List Nat → List (List TxInput)
  | [] => []
  | 0 :: layout => [] :: markFirst layout
  | (count + 1) :: layout =>
      (respentInput :: List.replicate count otherInput) :: constantContent otherInput layout

theorem markFirst_layout (layout : List Nat) : (markFirst layout).map List.length = layout := by
  induction layout with
  | nil => rfl
  | cons count layout ih =>
      cases count with
      | zero => rw [markFirst, List.map_cons, ih, List.length_nil]
      | succ count =>
          rw [markFirst, List.map_cons, constantContent_layout, List.length_cons,
            List.length_replicate]

theorem markFirst_marks {layout : List Nat} (some_input : layout.sum ≠ 0) :
    respentInput ∈ (markFirst layout).flatten ∧
      spendsAmong respentInput (markFirst layout).flatten = 1 := by
  induction layout with
  | nil => exact absurd rfl some_input
  | cons count layout ih =>
      cases count with
      | zero =>
          rw [List.sum_cons, Nat.zero_add] at some_input
          exact ih some_input
      | succ count =>
          rw [markFirst, List.flatten_cons, spendsAmong_append, spendsAmong_constantContent_other,
            spendsAmong_cons_of_same ⟨rfl, rfl⟩, spendsAmong_replicate_otherInput]
          exact ⟨by simp, rfl⟩

/-- Every input behind the first transaction consumes the output. -/
def markBehind : List Nat → List (List TxInput)
  | [] => []
  | count :: layout => List.replicate count otherInput :: constantContent respentInput layout

theorem markBehind_layout (layout : List Nat) : (markBehind layout).map List.length = layout := by
  cases layout with
  | nil => rfl
  | cons count layout =>
      rw [markBehind, List.map_cons, constantContent_layout, List.length_replicate]

/-- The first input of all and every input from position `bound + 1` on consume the output. -/
def markBeyond (bound : Nat) : List Nat → List (List TxInput)
  | [] => []
  | count :: layout =>
      (respentInput :: (List.replicate bound otherInput ++
        List.replicate (count - (bound + 1)) respentInput)) ::
      layout.map fun count => List.replicate (bound + 1) otherInput ++
        List.replicate (count - (bound + 1)) respentInput

theorem markBeyond_layout {bound : Nat} {layout : List Nat}
    (enough : ∀ count ∈ layout, bound + 1 ≤ count) :
    (markBeyond bound layout).map List.length = layout := by
  cases layout with
  | nil => rfl
  | cons count layout =>
      have first := enough count List.mem_cons_self
      rw [markBeyond, List.map_cons, List.map_map, List.length_cons, List.length_append,
        List.length_replicate, List.length_replicate]
      congr 1
      · omega
      · refine (List.map_congr_left fun other member => ?_).trans (List.map_id layout)
        have later := enough other (List.mem_cons_of_mem _ member)
        simp only [Function.comp_apply, List.length_append, List.length_replicate, id]
        omega

theorem sum_of_markBehind {count : Nat} {counts : List Nat} :
    spendsAmong respentInput (markBehind (count :: counts)).flatten = counts.sum := by
  rw [markBehind, List.flatten_cons, spendsAmong_append, spendsAmong_replicate_otherInput,
    spendsAmong_constantContent, Nat.zero_add]

/-- Marking from a position on leaves one spend in front of it. -/
theorem spendsAmong_markBeyond_take {bound count : Nat} {counts : List Nat} :
    spendsAmong respentInput
      ((markBeyond bound (count :: counts)).flatMap (List.take (bound + 1))) = 1 := by
  have front : ∀ other, (List.replicate (bound + 1) otherInput ++
      List.replicate (other - (bound + 1)) respentInput).take (bound + 1) =
      List.replicate (bound + 1) otherInput := fun other =>
    List.take_left' List.length_replicate
  have first : (List.replicate bound otherInput ++
      List.replicate (count - (bound + 1)) respentInput).take bound =
      List.replicate bound otherInput := List.take_left' List.length_replicate
  have rest : spendsAmong respentInput (counts.flatMap fun _ =>
      List.replicate (bound + 1) otherInput) = 0 := by
    rw [spendsAmong, List.countP_eq_zero]
    intro input member
    obtain ⟨_, _, replicated⟩ := List.mem_flatMap.mp member
    rw [List.eq_of_mem_replicate replicated]
    decide
  rw [markBeyond, List.flatMap_cons, List.take_succ_cons, first, List.flatMap_map,
    List.flatMap_congr fun other _ => front other, spendsAmong_append,
    spendsAmong_cons_of_same ⟨rfl, rfl⟩, spendsAmong_replicate_otherInput, rest]

/-- When it leaves one spend in all, no transaction goes beyond that position. -/
theorem le_of_spendsAmong_markBeyond {bound : Nat} {layout : List Nat}
    (once : spendsAmong respentInput (markBeyond bound layout).flatten = 1) :
    ∀ count ∈ layout, count ≤ bound + 1 := by
  cases layout with
  | nil => exact fun _ member => absurd member List.not_mem_nil
  | cons count counts =>
      rw [markBeyond, List.flatten_cons, spendsAmong_append, spendsAmong_cons_of_same ⟨rfl, rfl⟩,
        spendsAmong_append, spendsAmong_replicate_otherInput, spendsAmong_replicate_respentInput,
        spendsAmong_flatten, List.map_map] at once
      have others : (counts.map (spendsAmong respentInput ∘ fun count =>
          List.replicate (bound + 1) otherInput ++
            List.replicate (count - (bound + 1)) respentInput)).sum = 0 := by omega
      rw [List.sum_eq_zero_iff_forall_eq_nat] at others
      refine List.forall_mem_cons.mpr ⟨by omega, fun other member => ?_⟩
      have beyond := others _ (List.mem_map_of_mem member)
      rw [Function.comp_apply, spendsAmong_append, spendsAmong_replicate_otherInput,
        spendsAmong_replicate_respentInput] at beyond
      omega

namespace Block

/-- A loaded block shows no spend when its first transaction has none. -/
theorem spendsAmong_loaded_visible {block : Block} {input : TxInput}
    (clean : ∀ tx, block.txs.head? = some tx → spendsAmong input tx.ins = 0) :
    spendsAmong input block.loaded.visible = 0 := by
  refine Nat.le_zero.mp ((spendsAmong_visible_le _ input).trans (Nat.not_lt.mp fun shown => ?_))
  obtain ⟨other, member, same⟩ := spendsAmong_pos_iff.mp shown
  cases txs_eq : block.txs with
  | nil => simp [inputs, loaded, txs_eq] at member
  | cons first others =>
      rw [mem_loaded_inputs_iff txs_eq] at member
      have none_spent := clean first (by rw [txs_eq]; rfl)
      exact absurd (spendsAmong_pos_iff.mpr ⟨other, member, same⟩) (by omega)

end Block

namespace SpendingChain

section Necessity

variable {chain : SpendingChain}

/-- A right verdict finds no second spend out of sight. -/
theorem Judged.occursOnce {input : TxInput} (judged : chain.Judged input)
    (above : chain.parent.header.height ≠ 0) (hidden : ¬ chain.Shown input) :
    chain.OccursOnce input := by
  by_contra twice
  exact hidden (shown_of_returns above (judged.otherwise twice))

/-- No ancestor consumes the output. -/
def quietLabels {top : List (List TxInput)}
    (top_layout : top.map List.length = chain.parent.layout) : chain.Labels where
  top := top
  below block := constantContent otherInput block.layout
  top_layout := top_layout
  below_layout _ _ := constantContent_layout _ _

/-- The block consumes the output once, and its ancestors with every input out of sight. -/
def hiddenLabels (chain : SpendingChain) : chain.Labels where
  top := markFirst chain.parent.layout
  below block :=
    if block.header.height = 0 then constantContent respentInput block.layout
    else markBehind block.layout
  top_layout := markFirst_layout _
  below_layout block _ := by
    split
    · exact constantContent_layout _ _
    · exact markBehind_layout _

section Quiet

variable {top : List (List TxInput)} (top_layout : top.map List.length = chain.parent.layout)

theorem spendsAmong_quietLabels :
    ∀ block ∈ (relabel (quietLabels top_layout)).ancestors,
      spendsAmong respentInput block.inputs = 0 := by
  intro block member
  obtain ⟨old, _, relabels⟩ := exists_of_mem_relabel _ member
  rw [inputs_of_content relabels.content]
  exact spendsAmong_constantContent_other _

theorem not_shown_quietLabels
    (few : spendsAmong respentInput (relabel (quietLabels top_layout)).parent.visible ≤ 1) :
    ¬ (relabel (quietLabels top_layout)).Shown respentInput := by
  rintro (many | ⟨block, member, _, shown⟩)
  · exact absurd few (Nat.not_le.mpr many)
  · have quiet := spendsAmong_quietLabels top_layout block member
    refine absurd (Block.spendsAmong_loaded_visible fun tx first => ?_) (Nat.ne_of_gt shown)
    rw [spendsAmong, List.countP_eq_zero] at quiet ⊢
    exact fun input inputMember =>
      quiet input (List.mem_flatMap.mpr ⟨tx, List.mem_of_mem_head? first, inputMember⟩)

end Quiet

theorem not_shown_hiddenLabels (some_input : chain.parent.layout.sum ≠ 0) :
    ¬ (relabel chain.hiddenLabels).Shown respentInput := by
  rintro (many | ⟨block, member, above, shown⟩)
  · have once := (markFirst_marks some_input).2
    have fewer := (relabel chain.hiddenLabels).parent.spendsAmong_visible_le respentInput
    have inputs_eq : (relabel chain.hiddenLabels).parent.inputs =
        (markFirst chain.parent.layout).flatten :=
      inputs_of_content (relabel_content chain.hiddenLabels)
    rw [inputs_eq, once] at fewer
    exact absurd fewer (Nat.not_le.mpr many)
  · obtain ⟨old, _, relabels⟩ := exists_of_mem_relabel _ member
    refine absurd (Block.spendsAmong_loaded_visible fun tx first => ?_) (Nat.ne_of_gt shown)
    have labelled : chain.hiddenLabels.below old = markBehind old.layout :=
      if_neg (relabels.height ▸ above)
    have head : (markBehind old.layout).head? = some tx.ins := by
      rw [← labelled, ← relabels.content, List.head?_map, first]
      rfl
    cases layout_eq : old.layout with
    | nil =>
        rw [layout_eq] at head
        cases head
    | cons count counts =>
        rw [layout_eq] at head
        rw [← Option.some.inj head]
        exact spendsAmong_replicate_otherInput count

/-- Without a stored block the walk from height 0 has nowhere to go. -/
theorem not_returns_relabel (labels : chain.Labels) {input : TxInput}
    (bottom : chain.parent.header.height = 0) : ¬ (relabel labels).Returns input 0 := by
  have alone : chain.ancestors = [] := by
    have ancestry := chain.ancestry
    rw [bottom] at ancestry
    exact ancestry.nil_of_zero
  have missing : ∀ hash, (relabel labels).store.loadBlock hash = .ok none := by
    intro hash
    change mIoLoadBlock (keepBlocks leadingBytes (stackBlocks (chain.ancestors.map labels.txs)))
      hash = _
    rw [alone]
    rfl
  have high : (relabel labels).parent.header.height - 1 ≠ 0 := by
    rw [relabel_height, bottom]
    decide
  intro returns
  rw [returns_iff, inputCheckReturns_iff] at returns
  rcases returns with ⟨code, _⟩ | ⟨_, walk⟩
  · exact absurd code.symm errTxDoublespend_ne_zero
  · generalize (relabel labels).parent.header.height - 1 = height at walk high
    cases walk with
    | done => exact absurd rfl high
    | passed _ loaded _ _ =>
        rw [missing] at loaded
        cases loaded

variable (right : ∀ other : SpendingChain, other.profiles = chain.profiles →
    ∀ input ∈ other.parent.inputs, other.Judged input)
  (some_input : chain.parent.layout.sum ≠ 0)

include right some_input

/-- The only spend is found to be the only one, so everything can be read. -/
theorem readable_of_judged : chain.parent.header.height ≠ 0 ∧
    (relabel (quietLabels (markFirst_layout chain.parent.layout))).Readable := by
  obtain ⟨marked, once⟩ := markFirst_marks some_input
  set labels := quietLabels (markFirst_layout chain.parent.layout)
  have inputs_eq : (relabel labels).parent.inputs = (markFirst chain.parent.layout).flatten :=
    inputs_of_content (relabel_content labels)
  have judged := right (relabel labels) (relabel_profiles labels) respentInput (inputs_eq ▸ marked)
  have returned := judged.zero_iff.mpr ⟨inputs_eq ▸ once, spendsAmong_quietLabels _⟩
  have above : chain.parent.header.height ≠ 0 := fun bottom =>
    not_returns_relabel labels bottom returned
  exact ⟨above, ((returns_zero_iff (relabel_height labels ▸ above)).mp returned).1⟩

/-- A verdict that sees at most one spend in the block, and none elsewhere, takes it for the only
one. -/
theorem once_of_judged {top : List (List TxInput)}
    (top_layout : top.map List.length = chain.parent.layout) (marked : respentInput ∈ top.flatten)
    (few : spendsAmong respentInput (relabel (quietLabels top_layout)).parent.visible ≤ 1) :
    spendsAmong respentInput top.flatten = 1 := by
  set labels := quietLabels top_layout
  have inputs_eq : (relabel labels).parent.inputs = top.flatten :=
    inputs_of_content (relabel_content labels)
  have above : (relabel labels).parent.header.height ≠ 0 :=
    relabel_height labels ▸ (readable_of_judged right some_input).1
  have judged := right (relabel labels) (relabel_profiles labels) respentInput (inputs_eq ▸ marked)
  exact inputs_eq ▸ (judged.occursOnce above (not_shown_quietLabels top_layout few)).1

theorem exists_stopsAt_of_judged : ∃ bound, chain.parent.StopsAt bound := by
  obtain ⟨_, readable, _⟩ := readable_of_judged right some_input
  have nonempty :
      (relabel (quietLabels (markFirst_layout chain.parent.layout))).parent.txs ≠ [] := by
    intro empty
    rw [← relabel_layout (quietLabels (markFirst_layout chain.parent.layout)), Block.layout,
      empty] at some_input
    exact some_input rfl
  have stops := Block.stopsAt_of_readable (counted _) readable nonempty
  rw [Block.StopsAt, relabel_layout] at stops
  exact ⟨_, stops⟩

theorem parent_of_judged : chain.parent.Level ∨ chain.parent.Lone := by
  obtain ⟨bound, stops⟩ := exists_stopsAt_of_judged right some_input
  have same : ∀ labels : chain.Labels, (relabel labels).parent.scanBound = bound := by
    intro labels
    refine Block.scanBound_eq_of_stopsAt (relabel labels).counted ?_
    rw [Block.StopsAt, relabel_layout]
    exact stops
  cases bound with
  | zero =>
      -- no input is looked at, so there must not be a second one
      have nothing : ∀ labels : chain.Labels, (relabel labels).parent.visible = [] := by
        intro labels
        rw [Block.visible, same]
        exact List.flatMap_eq_nil_iff.mpr fun _ _ => List.take_zero
      have once := once_of_judged right some_input (constantContent_layout respentInput _)
        (mem_constantContent some_input) (by rw [nothing]; exact Nat.zero_le 1)
      rw [spendsAmong_constantContent] at once
      exact .inr ⟨List.head?_eq_getElem?.trans stops.1, once⟩
  | succ bound =>
      -- no transaction may go on beyond the bound
      have layout_eq := markBeyond_layout stops.2
      obtain ⟨inside, _⟩ := List.getElem?_eq_some_iff.mp stops.1
      obtain ⟨count, counts, cons_eq⟩ :=
        List.exists_cons_of_ne_nil (List.ne_nil_of_length_pos (Nat.zero_lt_of_lt inside))
      have few : spendsAmong respentInput
          (relabel (quietLabels layout_eq)).parent.visible ≤ 1 := by
        rw [visible_of_content (relabel_content (quietLabels layout_eq)), same]
        change spendsAmong respentInput ((markBeyond bound chain.parent.layout).flatMap _) ≤ 1
        rw [cons_eq, spendsAmong_markBeyond_take]
      have marked : respentInput ∈ (markBeyond bound chain.parent.layout).flatten := by
        rw [cons_eq]
        simp [markBeyond]
      have fewer := le_of_spendsAmong_markBeyond
        (once_of_judged right some_input layout_eq marked few)
      exact .inl ⟨bound + 1, inside, fun other member =>
        Nat.le_antisymm (fewer other member) (stops.2 other member)⟩

/-- The ancestors have no inputs out of sight. -/
theorem ancestors_of_judged : ∀ block ∈ chain.ancestors,
    spendsAmong respentInput (chain.hiddenLabels.below block).flatten = 0 := by
  obtain ⟨marked, _⟩ := markFirst_marks some_input
  have above : (relabel chain.hiddenLabels).parent.header.height ≠ 0 :=
    relabel_height chain.hiddenLabels ▸ (readable_of_judged right some_input).1
  have inputs_eq : (relabel chain.hiddenLabels).parent.inputs =
      (markFirst chain.parent.layout).flatten :=
    inputs_of_content (relabel_content chain.hiddenLabels)
  have judged := right (relabel chain.hiddenLabels) (relabel_profiles _) respentInput
    (inputs_eq ▸ marked)
  have once := judged.occursOnce above (not_shown_hiddenLabels some_input)
  intro old member
  obtain ⟨block, blockMember, relabels⟩ := exists_mem_relabel chain.hiddenLabels member
  rw [← inputs_of_content relabels.content]
  exact once.2 block blockMember

theorem searchable_of_judged : chain.Searchable where
  above := (readable_of_judged right some_input).1
  short := by
    have short := (readable_of_judged right some_input).2.1.short
    rw [← relabel_layout (quietLabels (markFirst_layout chain.parent.layout)), Block.layout,
      List.length_map]
    exact short
  fits := by
    intro old member above
    obtain ⟨_, _, readable⟩ := readable_of_judged right some_input
    obtain ⟨block, blockMember, relabels⟩ :=
      exists_mem_relabel (quietLabels (markFirst_layout chain.parent.layout)) member
    rw [← relabels.size]
    exact (readable block blockMember (relabels.height ▸ above)).1
  parent := parent_of_judged right some_input
  stored := by
    intro old member above
    have hidden := ancestors_of_judged right some_input old member
    have labelled : chain.hiddenLabels.below old = markBehind old.layout := if_neg above
    obtain ⟨_, _, readable⟩ := readable_of_judged right some_input
    obtain ⟨block, blockMember, relabels⟩ :=
      exists_mem_relabel (quietLabels (markFirst_layout chain.parent.layout)) member
    have layout_eq : block.layout = old.layout :=
      (layout_of_content relabels.content).trans (constantContent_layout _ _)
    cases cons_eq : old.layout with
    | nil => exact .inl rfl
    | cons count counts =>
        rw [labelled, cons_eq, sum_of_markBehind, List.sum_eq_zero_iff_forall_eq_nat] at hidden
        have counted := counted_of_mem_ancestors (ancestry _) block blockMember
        exact .inr ⟨count, counts, cons_eq, Block.count_le_of_loaded_readable counted
          (layout_eq.trans cons_eq) (readable block blockMember (relabels.height ▸ above)).2,
          hidden⟩
  genesis := by
    intro old member bottom
    have hidden := ancestors_of_judged right some_input old member
    have labelled : chain.hiddenLabels.below old = constantContent respentInput old.layout :=
      if_pos bottom
    rwa [labelled, spendsAmong_constantContent] at hidden

end Necessity

theorem Searchable.of_profiles {chain other : SpendingChain} (searchable : chain.Searchable)
    (same : other.profiles = chain.profiles) : other.Searchable := by
  obtain ⟨top, below⟩ := List.cons.inj same
  obtain ⟨height_eq, rest⟩ := Prod.mk.inj top
  have layout_eq : other.parent.layout = chain.parent.layout := congrArg Prod.fst rest
  have old_of_mem : ∀ block ∈ other.ancestors, ∃ old ∈ chain.ancestors,
      old.header.height = block.header.height ∧ old.layout = block.layout ∧
        old.bytes.length = block.bytes.length := by
    intro block member
    obtain ⟨old, oldMember, profile⟩ :=
      List.mem_map.mp (below ▸ List.mem_map_of_mem (f := Block.profile) member)
    simp only [Block.profile, Prod.mk.injEq] at profile
    exact ⟨old, oldMember, profile⟩
  refine ⟨height_eq ▸ searchable.above, layout_eq ▸ searchable.short, fun block member => ?_, ?_,
    fun block member => ?_, fun block member => ?_⟩
  · obtain ⟨old, oldMember, height, _, size⟩ := old_of_mem block member
    rw [← height, ← size]
    exact searchable.fits old oldMember
  · rw [Block.Level, Block.Lone, layout_eq]
    exact searchable.parent
  · obtain ⟨old, oldMember, height, layout, _⟩ := old_of_mem block member
    rw [Block.Fronted, ← height, ← layout]
    exact searchable.stored old oldMember
  · obtain ⟨old, oldMember, height, layout, _⟩ := old_of_mem block member
    rw [← height, ← layout]
    exact searchable.genesis old oldMember

/-- Whatever the inputs of a block and its ancestors refer to, they are judged right exactly when
there is nothing to judge or nothing out of sight. -/
theorem forall_judged_iff (chain : SpendingChain) :
    (∀ other : SpendingChain, other.profiles = chain.profiles →
      ∀ input ∈ other.parent.inputs, other.Judged input) ↔
      chain.parent.inputs = [] ∨ chain.Searchable := by
  constructor
  · intro right
    by_cases empty : chain.parent.layout.sum = 0
    · rw [← Block.length_inputs, List.length_eq_zero_iff] at empty
      exact .inl empty
    · exact .inr (searchable_of_judged right empty)
  · rintro (empty | searchable) other same input member
    · have layout_eq : other.parent.layout = chain.parent.layout :=
        congrArg (fun profile => profile.2.1) (List.cons.inj same).1
      have nothing : other.parent.inputs.length = 0 := by
        rw [Block.length_inputs, layout_eq, ← Block.length_inputs, empty, List.length_nil]
      rw [List.length_eq_zero_iff.mp nothing] at member
      cases member
    · exact judged_of_searchable (searchable.of_profiles same) member

/-- `validate_tx_input_chain` judges one input right exactly when the only spend passes or another
is caught.  It judges the inputs of a block right, whatever they and those of its ancestors refer
to, exactly when there is nothing to judge or nothing out of its sight: the height of the block is
not 0, an `int` can count its transactions, all of them have the same number of inputs and there are
more transactions than that (or its only input is not in the first transaction), the stored
ancestors fit the buffer and have inputs in their first transaction only, fewer than they have
transactions, and the block of height 0 has none. -/
theorem judged_iff (chain : SpendingChain) :
    (∀ input, chain.Judged input ↔
      (chain.OccursOnce input ∧ chain.parent.Passes chain.store input) ∨
        (¬ chain.OccursOnce input ∧ chain.parent.Catches chain.store input)) ∧
    ((∀ other : SpendingChain, other.profiles = chain.profiles →
      ∀ input ∈ other.parent.inputs, other.Judged input) ↔
      chain.parent.inputs = [] ∨ chain.Searchable) :=
  ⟨fun _ => judged_iff_seen, forall_judged_iff chain⟩

/-- A transaction without outputs. -/
def inputsTx (ins : List TxInput) : Tx where
  header := { version := 2, inCount := .ofNat ins.length, outCount := 0, lockTime := 0 }
  ins := ins
  outs := []

/-- A block of height 1 with the given inputs, on top of one without transactions. -/
def shortChain (top : List (List TxInput)) (fits : ContentFits (top.map inputsTx)) :
    SpendingChain :=
  stackChain (fun _ _ => none) (fun _ => oneTrueRoot) (top.map inputsTx) [[]] fits
    (by simp [ContentFits]) (by simp)

/-- Two transactions with one input each. -/
def pairChain : SpendingChain :=
  shortChain [[respentInput], [otherInput]] ⟨by decide, by decide⟩

theorem judged_pairChain :
    respentInput ∈ pairChain.parent.inputs ∧ pairChain.Judged respentInput := by
  have member : respentInput ∈ pairChain.parent.inputs := by decide
  have bottom : ∀ block ∈ pairChain.ancestors, block = stackBlock [] [] := fun _ ancestor =>
    List.mem_singleton.mp ancestor
  have searchable : pairChain.Searchable := by
    refine ⟨by decide, by decide, fun block ancestor above => ?_,
      .inl ⟨1, by decide, by decide⟩, fun block ancestor above => ?_, fun block ancestor _ => ?_⟩
    · rw [bottom block ancestor] at above
      exact absurd rfl above
    · rw [bottom block ancestor] at above
      exact absurd rfl above
    · rw [bottom block ancestor]
      rfl
  exact ⟨member, (judged_iff pairChain).2.mpr (.inr searchable) pairChain rfl respentInput member⟩

/-- A transaction without inputs, and one that spends an output twice. -/
def twiceChain : SpendingChain :=
  shortChain [[], [respentInput, respentInput]] ⟨by decide, by decide⟩

/-- That double spend is not seen. -/
theorem judged_twiceChain_fails : respentInput ∈ twiceChain.parent.inputs ∧
    twiceChain.Returns respentInput 0 ∧ ¬ twiceChain.Judged respentInput := by
  have returned : twiceChain.Returns respentInput 0 := ⟨0, rfl⟩
  refine ⟨by decide, returned, fun judged => ?_⟩
  have once := (judged.zero_iff.mp returned).1
  exact absurd once (by decide)

end SpendingChain

end Freecoin
