import Freecoin.HeadWalks
import Freecoin.MerkleIds
import Freecoin.Sha256Blocks

/-!
# Histories

What one hash says about the store of another machine.  Two machines that saved whatever blocks in
whatever order and walk back from one hash read the same headers as far as both of them have the
blocks, and index files with one content list the same transactions; anything else is a collision of
`sha256_transform` among the strings that were hashed.
-/

namespace Freecoin

open Foundation

/-! ## Walks -/

/-- The headers that the loop of `chain_clean` loads, from a hash backward until a block is missing
or has height 0.  The loop of `enchain_block` loads them up to the block it looks for. -/
def walkHeaders (disk : Disk) (fuel : Nat) (hash : Digest) : Run (List BlockHeader) := do
  let loads ← walkLoads disk (fun _ => False) fuel hash
  return loads.map Prod.snd

/-- A walk got down to height 0. -/
def ReachesBottom (headers : List BlockHeader) : Prop := ∃ header ∈ headers, header.height = 0

/-- Two different headers of two walks at which the digest collides. -/
def HeadersCollide (left right : List BlockHeader) : Prop :=
  ∃ x ∈ left, ∃ y ∈ right, x ≠ y ∧ Sha256Collides x.bytes y.bytes

theorem reachesBottom_map {loads : List (Digest × BlockHeader)} :
    ReachesBottom (loads.map Prod.snd) ↔ ∃ load ∈ loads, load.2.height = 0 := by
  constructor
  · rintro ⟨header, member, bottom⟩
    obtain ⟨load, loadMember, rfl⟩ := List.mem_map.mp member
    exact ⟨load, loadMember, bottom⟩
  · rintro ⟨load, member, bottom⟩
    exact ⟨load.2, List.mem_map_of_mem member, bottom⟩

theorem HeadersCollide.cons {left right : List BlockHeader} (collide : HeadersCollide left right)
    (x y : BlockHeader) : HeadersCollide (x :: left) (y :: right) := by
  obtain ⟨first, leftMember, second, rightMember, collision⟩ := collide
  exact ⟨first, List.mem_cons_of_mem x leftMember, second, List.mem_cons_of_mem y rightMember,
    collision⟩

/-- One of two walks loaded the first of the headers that the other loaded, and all of them if it
went as far as it goes, or the digest collides at two of the headers. -/
def AgreeAsFar (left right : List BlockHeader) (leftEnds rightEnds : Prop) : Prop :=
  HeadersCollide left right ∨ left <+: right ∧ (leftEnds → left = right) ∨
    right <+: left ∧ (rightEnds → left = right)

theorem AgreeAsFar.cons {left right : List BlockHeader}
    {leftEnds rightEnds leftEnds' rightEnds' : Prop}
    (agree : AgreeAsFar left right leftEnds rightEnds) (header : BlockHeader)
    (leftImp : leftEnds' → leftEnds) (rightImp : rightEnds' → rightEnds) :
    AgreeAsFar (header :: left) (header :: right) leftEnds' rightEnds' := by
  rcases agree with collide | ⟨front, whole⟩ | ⟨front, whole⟩
  · exact .inl (collide.cons header header)
  · refine .inr (.inl ⟨List.cons_prefix_cons.mpr ⟨rfl, front⟩, fun ends => ?_⟩)
    rw [whole (leftImp ends)]
  · refine .inr (.inr ⟨List.cons_prefix_cons.mpr ⟨rfl, front⟩, fun ends => ?_⟩)
    rw [whole (rightImp ends)]

section Step

variable {disk : Disk} {fuel : Nat} {hash : Digest} {loads : List (Digest × BlockHeader)}

/-- A walk went as far as it goes: to height 0 or to a hash it stops at. -/
def RunsOut (stops : Digest → Prop) (loads : List (Digest × BlockHeader)) : Prop :=
  ∃ load ∈ loads, stops load.1 ∨ load.2.height = 0

theorem not_runsOut_nil (stops : Digest → Prop) : ¬ RunsOut stops [] := by
  rintro ⟨load, member, _⟩
  cases member

/-- A walk that goes on behind a header runs out where the rest of it does. -/
theorem RunsOut.of_cons {stops : Digest → Prop} {load : Digest × BlockHeader}
    (runsOut : RunsOut stops (load :: loads)) (notLast : ¬ (stops load.1 ∨ load.2.height = 0)) :
    RunsOut stops loads := by
  obtain ⟨other, member, last⟩ := runsOut
  rcases List.mem_cons.mp member with rfl | behind
  · exact absurd last notLast
  · exact ⟨other, behind, last⟩

/-- What a walk loads first, and what is behind it. -/
theorem walkLoads_cases {stops : Digest → Prop} [DecidablePred stops]
    (walked : walkLoads disk stops fuel hash = .ok loads) :
    loads = [] ∨ ∃ header rest, ioLoadBlockHeader disk hash = .ok (some header) ∧
      loads = (hash, header) :: rest ∧
        ((stops hash ∨ header.height = 0) ∧ rest = [] ∨
          ¬ (stops hash ∨ header.height = 0) ∧
            ∃ less, walkLoads disk stops less header.prevHash = .ok rest) := by
  cases fuel with
  | zero => cases walked
  | succ fuel =>
      rw [walkLoads, Run.bind_eq_ok] at walked
      obtain ⟨loaded, load, rest⟩ := walked
      cases loaded with
      | none => exact .inl (Except.ok.inj rest).symm
      | some header =>
          simp only at rest
          by_cases last : stops hash ∨ header.height = 0
          · rw [if_pos last] at rest
            exact .inr ⟨header, [], load, (Except.ok.inj rest).symm, .inl ⟨last, rfl⟩⟩
          · rw [if_neg last, Run.bind_eq_ok] at rest
            obtain ⟨behind, walked, rest⟩ := rest
            exact .inr ⟨header, behind, load, (Except.ok.inj rest).symm,
              .inr ⟨last, fuel, walked⟩⟩

/-- Everything that is loaded is loaded for its own hash. -/
theorem loaded_of_mem_walkLoads {stops : Digest → Prop} [DecidablePred stops]
    (walked : walkLoads disk stops fuel hash = .ok loads) :
    ∀ load ∈ loads, ioLoadBlockHeader disk load.1 = .ok (some load.2) := by
  induction loads generalizing fuel hash with
  | nil => simp
  | cons load loads ih =>
      rcases walkLoads_cases walked with empty | ⟨header, rest, loaded, split, ends⟩
      · cases empty
      obtain ⟨rfl, rfl⟩ := List.cons.inj split
      rcases ends with ⟨_, rfl⟩ | ⟨_, less, behind⟩
      · simpa using loaded
      · exact List.forall_mem_cons.mpr ⟨loaded, ih behind⟩

/-- The walk of `enchain_block` meets the block exactly if it loads it. -/
theorem met_iff_of_enchainWalkLoads {blockHash : Digest} {met : Bool}
    (walked : enchainWalkLoads disk blockHash fuel hash = .ok (loads, met)) :
    met = true ↔ ∃ load ∈ loads, load.1 = blockHash := by
  induction fuel generalizing hash loads met with
  | zero => cases walked
  | succ fuel ih =>
      rw [enchainWalkLoads, Run.bind_eq_ok] at walked
      obtain ⟨loaded, _, rest⟩ := walked
      cases loaded with
      | none =>
          obtain ⟨rfl, rfl⟩ := Prod.mk.inj (Except.ok.inj rest)
          simp
      | some header =>
          simp only at rest
          by_cases here : hash = blockHash
          · rw [if_pos here] at rest
            obtain ⟨rfl, rfl⟩ := Prod.mk.inj (Except.ok.inj rest)
            simp [here]
          · by_cases bottom : header.height = 0
            · rw [if_neg here, if_pos bottom] at rest
              obtain ⟨rfl, rfl⟩ := Prod.mk.inj (Except.ok.inj rest)
              simp [here]
            · rw [if_neg here, if_neg bottom, Run.bind_eq_ok] at rest
              obtain ⟨⟨behind, metBehind⟩, walkedBehind, rest⟩ := rest
              obtain ⟨rfl, rfl⟩ := Prod.mk.inj (Except.ok.inj rest)
              rw [ih walkedBehind, List.exists_mem_cons_iff]
              exact (or_iff_right here).symm

/-- Where the walk to height 0 returns, the walk of `enchain_block` returns as well, having met
the block if that walk loads it. -/
theorem exists_enchainWalk_of_walkLoads
    (walked : walkLoads disk (fun _ => False) fuel hash = .ok loads) (blockHash : Digest) :
    ∃ met, enchainWalk disk blockHash fuel hash = .ok met ∧
      (met = true ↔ ∃ load ∈ loads, load.1 = blockHash) := by
  induction fuel generalizing hash loads with
  | zero => cases walked
  | succ fuel ih =>
      rw [walkLoads, Run.bind_eq_ok] at walked
      obtain ⟨loaded, load, rest⟩ := walked
      rw [enchainWalk_succ, load, Run.ok_bind]
      cases loaded with
      | none =>
          obtain rfl := Except.ok.inj rest
          exact ⟨false, rfl, by simp⟩
      | some header =>
          simp only [false_or] at rest
          by_cases bottom : header.height = 0
          · rw [if_pos bottom] at rest
            obtain rfl := Except.ok.inj rest
            by_cases here : hash = blockHash
            · exact ⟨true, if_pos here, by simp [here]⟩
            · refine ⟨false, ?_, by simp [here]⟩
              simp only [if_neg here, if_pos bottom]
          · rw [if_neg bottom, Run.bind_eq_ok] at rest
            obtain ⟨behind, walkedBehind, rest⟩ := rest
            obtain rfl := Except.ok.inj rest
            by_cases here : hash = blockHash
            · exact ⟨true, if_pos here, iff_of_true rfl ⟨_, List.mem_cons_self, here⟩⟩
            · obtain ⟨met, meets, met_iff⟩ := ih walkedBehind
              refine ⟨met, ?_, ?_⟩
              · simp only [if_neg here, if_neg bottom, meets]
              · rw [met_iff, List.exists_mem_cons_iff]
                exact (or_iff_right here).symm

/-- The walk of `enchain_block` finds out whether the block is among those that are loaded. -/
theorem enchainWalk_iff_walkHeaders (named : disk.NamedByHash sha256)
    {headers : List BlockHeader} (walked : walkHeaders disk fuel hash = .ok headers)
    (blockHash : Digest) :
    (∃ met, enchainWalk disk blockHash fuel hash = .ok met) ∧
      ∀ steps met, enchainWalk disk blockHash steps hash = .ok met →
        (met = true ↔ ∃ header ∈ headers, sha256 header.bytes = blockHash) := by
  rw [walkHeaders, Run.bind_eq_ok] at walked
  obtain ⟨loads, loaded, rest⟩ := walked
  obtain rfl := Except.ok.inj rest
  obtain ⟨met, meets, met_iff⟩ := exists_enchainWalk_of_walkLoads loaded blockHash
  refine ⟨⟨met, meets⟩, fun steps other otherMeets => ?_⟩
  rw [enchainWalk_eq_true_iff otherMeets, ← enchainWalk_eq_true_iff meets, met_iff]
  have names : ∀ load ∈ loads, sha256 load.2.bytes = load.1 := fun load member =>
    named _ _ (loaded_of_mem_walkLoads loaded load member)
  constructor
  · rintro ⟨load, member, here⟩
    exact ⟨load.2, List.mem_map_of_mem member, (names load member).trans here⟩
  · rintro ⟨header, member, here⟩
    obtain ⟨load, loadMember, rfl⟩ := List.mem_map.mp member
    exact ⟨load, loadMember, (names load loadMember).symm.trans here⟩

end Step

/-! ## Two machines -/

section Machines

variable {left right : Disk} {hash : Digest} {leftHeaders rightHeaders : List BlockHeader}

theorem BlockHeader.bytes_injective : Function.Injective BlockHeader.bytes := by
  intro header other same
  have read := blockHeaderDeserialize_bytes header []
  rw [same, blockHeaderDeserialize_bytes] at read
  exact (Except.ok.inj read).symm

/-- Headers that are loaded for one hash are the same, or the digest collides at them. -/
theorem eq_or_collides_of_loaded (leftNamed : left.NamedByHash sha256)
    (rightNamed : right.NamedByHash sha256) {x y : BlockHeader}
    (leftLoaded : ioLoadBlockHeader left hash = .ok (some x))
    (rightLoaded : ioLoadBlockHeader right hash = .ok (some y)) :
    x = y ∨ x ≠ y ∧ Sha256Collides x.bytes y.bytes := by
  have small : ∀ header : BlockHeader, header.bytes.length < 2 ^ 61 := by
    intro header
    rw [header.length_bytes]
    decide
  have digests := (leftNamed hash x leftLoaded).trans (rightNamed hash y rightLoaded).symm
  by_cases same : x = y
  · exact .inl same
  · refine .inr ⟨same, ?_⟩
    rcases eq_or_sha256Collides (small x) (small y) digests with bytes | collides
    · exact absurd (BlockHeader.bytes_injective bytes) same
    · exact collides

/-- Walks from one hash that stop at the same hashes load the same headers, as far as both get. -/
theorem walkLoads_agree (leftNamed : left.NamedByHash sha256)
    (rightNamed : right.NamedByHash sha256) {stops : Digest → Prop} [DecidablePred stops]
    {leftFuel rightFuel : Nat} {leftLoads rightLoads : List (Digest × BlockHeader)}
    (leftWalked : walkLoads left stops leftFuel hash = .ok leftLoads)
    (rightWalked : walkLoads right stops rightFuel hash = .ok rightLoads) :
    AgreeAsFar (leftLoads.map Prod.snd) (rightLoads.map Prod.snd) (RunsOut stops leftLoads)
      (RunsOut stops rightLoads) := by
  induction leftLoads generalizing hash leftFuel rightFuel rightLoads with
  | nil => exact .inr (.inl ⟨List.nil_prefix, fun runsOut => absurd runsOut (not_runsOut_nil _)⟩)
  | cons load leftRest ih =>
      rcases walkLoads_cases rightWalked with rfl | ⟨y, rightRest, rightLoaded, rfl, rightEnds⟩
      · exact .inr (.inr ⟨List.nil_prefix, fun runsOut => absurd runsOut (not_runsOut_nil _)⟩)
      rcases walkLoads_cases leftWalked with empty | ⟨x, _, leftLoaded, split, leftEnds⟩
      · cases empty
      obtain ⟨rfl, rfl⟩ := List.cons.inj split
      rcases eq_or_collides_of_loaded leftNamed rightNamed leftLoaded rightLoaded with
        rfl | ⟨differ, collides⟩
      · rw [List.map_cons, List.map_cons]
        rcases leftEnds with ⟨last, rfl⟩ | ⟨notLast, _, leftNext⟩
        · rcases rightEnds with ⟨_, rfl⟩ | ⟨notLast, _⟩
          · exact .inr (.inl ⟨List.prefix_rfl, fun _ => rfl⟩)
          · exact absurd last notLast
        · rcases rightEnds with ⟨last, _⟩ | ⟨_, _, rightNext⟩
          · exact absurd last notLast
          · exact (ih leftNext rightNext).cons x (·.of_cons notLast) (·.of_cons notLast)
      · exact .inl ⟨x, List.mem_cons_self, y, List.mem_cons_self, differ, collides⟩

theorem walkHeaders_agree (leftNamed : left.NamedByHash sha256)
    (rightNamed : right.NamedByHash sha256) {leftFuel rightFuel : Nat}
    {leftHeaders rightHeaders : List BlockHeader}
    (leftWalked : walkHeaders left leftFuel hash = .ok leftHeaders)
    (rightWalked : walkHeaders right rightFuel hash = .ok rightHeaders) :
    AgreeAsFar leftHeaders rightHeaders (ReachesBottom leftHeaders)
      (ReachesBottom rightHeaders) := by
  rw [walkHeaders, Run.bind_eq_ok] at leftWalked rightWalked
  obtain ⟨leftLoads, leftLoaded, leftRest⟩ := leftWalked
  obtain ⟨rightLoads, rightLoaded, rightRest⟩ := rightWalked
  obtain rfl := Except.ok.inj leftRest
  obtain rfl := Except.ok.inj rightRest
  rw [reachesBottom_map, reachesBottom_map]
  simpa only [RunsOut, false_or] using walkLoads_agree leftNamed rightNamed leftLoaded rightLoaded

end Machines

section Saved

variable {leftFuel rightFuel leftBudget rightBudget : Nat}
  {leftSaves rightSaves : List (List UInt8)} {leftStart rightStart left right : Disk}
  {hash : Digest}
  {leftHeaders rightHeaders : List BlockHeader}
  (leftFresh : ∀ name, leftStart.blocks name = none)
  (rightFresh : ∀ name, rightStart.blocks name = none)
  (leftSaved : saveAll sha256 leftFuel leftSaves leftStart = .ok left)
  (rightSaved : saveAll sha256 rightFuel rightSaves rightStart = .ok right)

include leftFresh rightFresh leftSaved rightSaved

theorem savedLoads_agree {stops : Digest → Prop} [DecidablePred stops]
    {leftLoads rightLoads : List (Digest × BlockHeader)} {leftNow rightNow : Disk}
    (leftSame : left.SameFiles leftNow) (rightSame : right.SameFiles rightNow)
    (leftWalked : walkLoads leftNow stops leftBudget hash = .ok leftLoads)
    (rightWalked : walkLoads rightNow stops rightBudget hash = .ok rightLoads) :
    AgreeAsFar (leftLoads.map Prod.snd) (rightLoads.map Prod.snd) (RunsOut stops leftLoads)
      (RunsOut stops rightLoads) := by
  rw [leftSame.walkLoads_eq] at leftWalked
  rw [rightSame.walkLoads_eq] at rightWalked
  exact walkLoads_agree (namedByHash_of_saveAll leftFresh leftSaved)
    (namedByHash_of_saveAll rightFresh rightSaved) leftWalked rightWalked

/-- Two machines that saved blocks of their own and walk back from one hash, in `chain_clean` or, on
the way to one block, in `enchain_block`, whatever heads they have by then: one of them loads the
first of the headers the other loads, and all of them if it gets down to height 0 or meets the
block, or the digest collides at two headers that were loaded. -/
theorem savedHistories_agree {leftNow rightNow : Disk} (leftSame : left.SameFiles leftNow)
    (rightSame : right.SameFiles rightNow) :
    (∀ leftHeads rightHeads i j leftLoads rightLoads leftAfter rightAfter,
      chainCleanWalkLoads leftHeads i leftBudget hash leftNow = .ok (leftLoads, leftAfter) →
      chainCleanWalkLoads rightHeads j rightBudget hash rightNow = .ok (rightLoads, rightAfter) →
        AgreeAsFar (leftLoads.map Prod.snd) (rightLoads.map Prod.snd)
          (ReachesBottom (leftLoads.map Prod.snd)) (ReachesBottom (rightLoads.map Prod.snd))) ∧
    ∀ blockHash leftLoads rightLoads leftMet rightMet,
      enchainWalkLoads leftNow blockHash leftBudget hash = .ok (leftLoads, leftMet) →
      enchainWalkLoads rightNow blockHash rightBudget hash = .ok (rightLoads, rightMet) →
        AgreeAsFar (leftLoads.map Prod.snd) (rightLoads.map Prod.snd)
          (leftMet = true ∨ ReachesBottom (leftLoads.map Prod.snd))
          (rightMet = true ∨ ReachesBottom (rightLoads.map Prod.snd)) := by
  have loads_agree := @savedLoads_agree leftFuel rightFuel leftBudget rightBudget leftSaves
    rightSaves leftStart rightStart left right hash leftFresh rightFresh leftSaved rightSaved
  constructor
  · intro leftHeads rightHeads i j leftLoads rightLoads leftAfter rightAfter leftWalked rightWalked
    have leftRun := fst_chainCleanWalkLoads leftHeads i leftBudget hash leftNow
    have rightRun := fst_chainCleanWalkLoads rightHeads j rightBudget hash rightNow
    rw [leftWalked] at leftRun
    rw [rightWalked] at rightRun
    have agree := loads_agree leftSame rightSame leftRun.symm rightRun.symm
    rw [reachesBottom_map, reachesBottom_map]
    simpa only [RunsOut, false_or] using agree
  · intro blockHash leftLoads rightLoads leftMet rightMet leftWalked rightWalked
    have leftRun := fst_enchainWalkLoads leftNow blockHash leftBudget hash
    have rightRun := fst_enchainWalkLoads rightNow blockHash rightBudget hash
    rw [leftWalked] at leftRun
    rw [rightWalked] at rightRun
    have agree := loads_agree leftSame rightSame leftRun.symm rightRun.symm
    rw [met_iff_of_enchainWalkLoads leftWalked, met_iff_of_enchainWalkLoads rightWalked,
      reachesBottom_map, reachesBottom_map]
    simpa only [RunsOut, and_or_left, exists_or] using agree

/-- Two machines that have the history of a hash down to height 0 find out whether a block is behind
it, and answer alike. -/
theorem savedWalks_agree
    (leftWalked : walkHeaders left leftBudget hash = .ok leftHeaders)
    (rightWalked : walkHeaders right rightBudget hash = .ok rightHeaders)
    (leftBottom : ReachesBottom leftHeaders) (rightBottom : ReachesBottom rightHeaders)
    (blockHash : Digest) :
    (∃ met, enchainWalk left blockHash leftBudget hash = .ok met) ∧
    (∃ met, enchainWalk right blockHash rightBudget hash = .ok met) ∧
    ∀ leftSteps rightSteps leftMet rightMet,
      enchainWalk left blockHash leftSteps hash = .ok leftMet →
      enchainWalk right blockHash rightSteps hash = .ok rightMet →
        leftMet = rightMet ∨ HeadersCollide leftHeaders rightHeaders := by
  have leftNamed := namedByHash_of_saveAll leftFresh leftSaved
  have rightNamed := namedByHash_of_saveAll rightFresh rightSaved
  obtain ⟨leftReturns, leftVerdict⟩ := enchainWalk_iff_walkHeaders leftNamed leftWalked blockHash
  obtain ⟨rightReturns, rightVerdict⟩ :=
    enchainWalk_iff_walkHeaders rightNamed rightWalked blockHash
  refine ⟨leftReturns, rightReturns,
    fun leftSteps rightSteps leftMet rightMet leftMeets rightMeets => ?_⟩
  have left_iff := leftVerdict leftSteps leftMet leftMeets
  have right_iff := rightVerdict rightSteps rightMet rightMeets
  rcases walkHeaders_agree leftNamed rightNamed leftWalked rightWalked with
    collide | ⟨_, whole⟩ | ⟨_, whole⟩
  · exact .inr collide
  · rw [whole leftBottom] at left_iff
    exact .inl (Bool.eq_iff_iff.mpr (left_iff.trans right_iff.symm))
  · rw [whole rightBottom] at left_iff
    exact .inl (Bool.eq_iff_iff.mpr (left_iff.trans right_iff.symm))

end Saved

/-- The headers behind the second block. -/
def nextHistory : List BlockHeader := [nextBlock.header, rootBlock.header]

theorem nextHistory_reachesBottom : ReachesBottom nextHistory :=
  ⟨rootBlock.header, by simp [nextHistory], rfl⟩

/-- The two orders of two blocks, on two machines. -/
theorem savedHistories_agree_nextBlock :
    ∃ left right, saveAll sha256 0 [rootBlock.bytes, nextBlock.bytes] Disk.empty = .ok left ∧
      saveAll sha256 0 [nextBlock.bytes, rootBlock.bytes] Disk.empty = .ok right ∧
      enchainWalkLoads left (rootBlock.hash sha256) 2 (nextBlock.hash sha256) =
        .ok (nextLoads, true) ∧
      ∀ loads met,
        enchainWalkLoads right (rootBlock.hash sha256) 2 (nextBlock.hash sha256) =
          .ok (loads, met) →
        AgreeAsFar nextHistory (loads.map Prod.snd) (true = true ∨ ReachesBottom nextHistory)
          (met = true ∨ ReachesBottom (loads.map Prod.snd)) := by
  obtain ⟨left, leftSaved, _, top, bottom⟩ := exists_saved_nextBlock (.inl rfl)
  obtain ⟨right, rightSaved, _⟩ := exists_saved_nextBlock (.inr rfl)
  have walked := enchainWalkLoads_nextBlock top bottom
  exact ⟨left, right, leftSaved, rightSaved, walked, fun loads met rightWalked =>
    (savedHistories_agree (fun _ => rfl) (fun _ => rfl) leftSaved rightSaved (.refl left)
      (.refl right)).2 _ _ _ _ _ walked rightWalked⟩

theorem savedWalks_agree_nextBlock :
    ∃ left right, saveAll sha256 0 [rootBlock.bytes, nextBlock.bytes] Disk.empty = .ok left ∧
      saveAll sha256 0 [nextBlock.bytes, rootBlock.bytes] Disk.empty = .ok right ∧
      (∃ met, enchainWalk right (rootBlock.hash sha256) 2 (nextBlock.hash sha256) = .ok met) ∧
      ∀ met, enchainWalk right (rootBlock.hash sha256) 2 (nextBlock.hash sha256) = .ok met →
        true = met ∨ HeadersCollide nextHistory nextHistory := by
  obtain ⟨left, leftSaved, _, leftTop, leftBottom⟩ := exists_saved_nextBlock (.inl rfl)
  obtain ⟨right, rightSaved, _, rightTop, rightBottom⟩ := exists_saved_nextBlock (.inr rfl)
  have leftWalked : walkHeaders left 2 (nextBlock.hash sha256) = .ok nextHistory := by
    rw [walkHeaders, walkLoads_nextBlock leftTop leftBottom]
    rfl
  have rightWalked : walkHeaders right 2 (nextBlock.hash sha256) = .ok nextHistory := by
    rw [walkHeaders, walkLoads_nextBlock rightTop rightBottom]
    rfl
  have leftMeets := enchainWalk_eq_ok.mpr ⟨_, enchainWalkLoads_nextBlock leftTop leftBottom⟩
  obtain ⟨_, returns, same⟩ := savedWalks_agree (fun _ => rfl) (fun _ => rfl) leftSaved rightSaved
    leftWalked rightWalked nextHistory_reachesBottom nextHistory_reachesBottom
    (rootBlock.hash sha256)
  exact ⟨left, right, leftSaved, rightSaved, returns, fun met rightMeets =>
    same 2 2 true met leftMeets rightMeets⟩

/-! ## Transaction indexes -/

/-- Digests one after the other are read back in one way. -/
theorem eq_of_flatMap_digests {left right : List Digest}
    (same : left.flatMap List.Vector.toList = right.flatMap List.Vector.toList) :
    left = right := by
  have lengths := congrArg List.length same
  rw [length_flatMap_digests, length_flatMap_digests] at lengths
  induction left generalizing right with
  | nil =>
      rw [List.length_nil] at lengths
      exact (List.length_eq_zero_iff.mp (by omega)).symm
  | cons x left ih =>
      cases right with
      | nil =>
          rw [List.length_cons, List.length_nil] at lengths
          omega
      | cons y right =>
          rw [List.flatMap_cons, List.flatMap_cons] at same
          obtain ⟨heads, tails⟩ :=
            List.append_inj same (x.toList_length.trans y.toList_length.symm)
          rw [List.length_cons, List.length_cons] at lengths
          rw [List.Vector.eq _ _ heads, ih tails (by omega)]

/-- Two different transactions in one place at which the digest collides. -/
def TxsCollide (left right : List Tx) : Prop :=
  ∃ (i : Nat) (x y : Tx), left[i]? = some x ∧ right[i]? = some y ∧ x ≠ y ∧
    Sha256Collides x.bytes y.bytes

/-- The ids of transactions tell them apart, one by one. -/
theorem eq_or_txsCollide {left right : List Tx} (leftCounted : ∀ tx ∈ left, tx.Counted)
    (rightCounted : ∀ tx ∈ right, tx.Counted)
    (same : left.map (fun tx => sha256 tx.bytes) = right.map fun tx => sha256 tx.bytes) :
    left = right ∨ TxsCollide left right := by
  have small : ∀ tx : Tx, tx.Counted → tx.bytes.length < 2 ^ 61 := by
    intro tx counted
    have ins := tx.header.inCount.toNat_lt
    have outs := tx.header.outCount.toNat_lt
    rw [counted.ins] at ins
    rw [counted.outs] at outs
    rw [tx.length_bytes]
    omega
  induction left generalizing right with
  | nil => exact .inl (List.map_eq_nil_iff.mp same.symm).symm
  | cons x left ih =>
      cases right with
      | nil => cases same
      | cons y right =>
          rw [List.map_cons, List.map_cons] at same
          obtain ⟨digests, rest⟩ := List.cons.inj same
          have here := leftCounted x List.mem_cons_self
          have there := rightCounted y List.mem_cons_self
          by_cases equal : x = y
          · rcases ih (fun tx member => leftCounted tx (List.mem_cons_of_mem x member))
              (fun tx member => rightCounted tx (List.mem_cons_of_mem y member)) rest with
              rfl | ⟨i, first, second, found⟩
            · exact .inl (equal ▸ rfl)
            · exact .inr ⟨i + 1, first, second, found⟩
          · rcases eq_or_sha256Collides (small x here) (small y there) digests with
              bytes | collides
            · exact absurd (Tx.eq_of_bytes_eq here there bytes) equal
            · exact .inr ⟨0, x, y, rfl, rfl, equal, collides⟩

/-- An index file belongs to a stored block and lists the ids of its transactions. -/
theorem exists_rawBlock_of_txindex {fuel : Nat} {saves : List (List UInt8)} {start disk : Disk}
    (freshBlocks : ∀ name, start.blocks name = none)
    (freshIndex : ∀ name, start.txindex name = none)
    (saved : saveAll sha256 fuel saves start = .ok disk) {hash : Digest} {index : List UInt8}
    (indexed : disk.txindex (blockFileName hash) = some index) :
    ∃ raw : RawBlock, raw.hash sha256 = hash ∧ blockFile disk hash = some raw.content ∧
      index = (raw.ids sha256).flatMap List.Vector.toList := by
  obtain ⟨raws, rfl⟩ := exists_rawBlocks_of_saveAll saved
  have content := blockFile_saveAll saved hash
  have absent : blockFile start hash = none := freshBlocks _
  rw [absent, Option.or_none] at content
  rw [(files_of_saveAll saved).2, replay_apply, freshIndex, Option.or_none,
    latest_comp (RawBlock.hash sha256) blockFileName_injective] at indexed
  obtain ⟨raw, found, rfl⟩ := Option.map_eq_some_iff.mp indexed
  rw [found] at content
  exact ⟨raw, (mem_of_latest _ found).2, content, rfl⟩

/-- Index files with one content, on two machines and for two hashes, belong to blocks with the same
transactions behind their headers, or the digest collides at two transactions in one place. -/
theorem savedIndexes_commit {leftFuel rightFuel : Nat} {leftSaves rightSaves : List (List UInt8)}
    {leftStart rightStart left right : Disk}
    (leftFresh : ∀ name, leftStart.blocks name = none ∧ leftStart.txindex name = none)
    (rightFresh : ∀ name, rightStart.blocks name = none ∧ rightStart.txindex name = none)
    (leftSaved : saveAll sha256 leftFuel leftSaves leftStart = .ok left)
    (rightSaved : saveAll sha256 rightFuel rightSaves rightStart = .ok right)
    {leftHash rightHash : Digest} {index : List UInt8}
    (leftIndex : left.txindex (blockFileName leftHash) = some index)
    (rightIndex : right.txindex (blockFileName rightHash) = some index) :
    ∃ (leftHeader rightHeader : BlockHeader) (leftTxs rightTxs : List Tx),
      blockFile left leftHash = some (leftHeader.bytes ++ leftTxs.flatMap Tx.bytes) ∧
      blockFile right rightHash = some (rightHeader.bytes ++ rightTxs.flatMap Tx.bytes) ∧
      (leftTxs = rightTxs ∨ TxsCollide leftTxs rightTxs) := by
  obtain ⟨x, _, leftContent, leftIds⟩ := exists_rawBlock_of_txindex
    (fun name => (leftFresh name).1) (fun name => (leftFresh name).2) leftSaved leftIndex
  obtain ⟨y, _, rightContent, rightIds⟩ := exists_rawBlock_of_txindex
    (fun name => (rightFresh name).1) (fun name => (rightFresh name).2) rightSaved rightIndex
  have ids := eq_of_flatMap_digests (leftIds.symm.trans rightIds)
  exact ⟨x.header, y.header, x.txs, y.txs, leftContent, rightContent,
    eq_or_txsCollide x.counted y.counted ids⟩

/-- The two transactions of that block behind another header. -/
def otherTxBlock : RawBlock :=
  { twoTxBlock with header := { twoTxBlock.header with nonce := 1 } }

theorem exists_saved_index {raw : RawBlock} (small : raw.offset raw.txs.length ≤ maxBlockSize) :
    ∃ disk, saveAll sha256 0 [raw.bytes] Disk.empty = .ok disk ∧
      disk.txindex (blockFileName (raw.hash sha256)) =
        some ((raw.ids sha256).flatMap List.Vector.toList) := by
  have headless : Disk.empty.heads = [] := rfl
  obtain ⟨disk, saved⟩ := @exists_saveAll sha256 0 [raw] Disk.empty headless (by
    intro other member
    rwa [List.mem_singleton.mp member])
  refine ⟨disk, saved, ?_⟩
  rw [(@files_of_saveAll sha256 0 [raw] _ _ saved).2]
  simp [replay_apply, latest]

theorem savedIndexes_commit_otherTxBlock :
    ∃ left right, ∃ (leftHeader rightHeader : BlockHeader) (leftTxs rightTxs : List Tx),
      blockFile left (twoTxBlock.hash sha256) =
        some (leftHeader.bytes ++ leftTxs.flatMap Tx.bytes) ∧
      blockFile right (otherTxBlock.hash sha256) =
        some (rightHeader.bytes ++ rightTxs.flatMap Tx.bytes) ∧
      (leftTxs = rightTxs ∨ TxsCollide leftTxs rightTxs) := by
  have small : twoTxBlock.offset twoTxBlock.txs.length ≤ maxBlockSize := by decide
  have otherSmall : otherTxBlock.offset otherTxBlock.txs.length ≤ maxBlockSize := by decide
  obtain ⟨left, leftSaved, leftIndex⟩ := exists_saved_index small
  obtain ⟨right, rightSaved, rightIndex⟩ := exists_saved_index otherSmall
  exact ⟨left, right, savedIndexes_commit (fun _ => ⟨rfl, rfl⟩) (fun _ => ⟨rfl, rfl⟩) leftSaved
    rightSaved leftIndex rightIndex⟩

end Freecoin
