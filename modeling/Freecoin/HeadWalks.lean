import Freecoin.BlockStore
import Freecoin.Foundation.Walk
import Mathlib.Data.Fintype.Vector

/-!
# The backward walks

`enchain_block` and `chain_clean` follow previous hashes from a head until a block is missing or has
height 0.  Both loops are walks along the same links; nothing in them counts, so they end because
blocks are named by the hashes of their headers, or not at all.  And every header is read out of a
buffer for its whole block, which the file has to fit.
-/

namespace Freecoin

open Foundation

instance finite_digest : Finite Digest := by
  have bytes : Finite UInt8 := Finite.of_injective UInt8.toFin fun _ _ => UInt8.toFin_inj.mp
  have enumeration := Fintype.ofFinite UInt8
  infer_instance

/-! ## Links -/

namespace Disk

/-- Every block file holds at least a header and fits the buffer it is loaded through. -/
def Readable (disk : Disk) : Prop := ∀ hash, ∃ loaded, ioLoadBlockHeader disk hash = .ok loaded

/-- Where the walks go from a hash: a missing block ends them, and so does one of height 0. -/
def link (disk : Disk) (hash : Digest) : Option (Option Digest) :=
  match ioLoadBlockHeader disk hash with
  | .ok (some header) => some (if header.height = 0 then none else some header.prevHash)
  | _ => none

variable {disk : Disk} {hash : Digest} {header : BlockHeader}

theorem link_of_missing (missing : ioLoadBlockHeader disk hash = .ok none) :
    disk.link hash = none := by
  rw [link, missing]

theorem link_of_bottom (loaded : ioLoadBlockHeader disk hash = .ok (some header))
    (bottom : header.height = 0) : disk.link hash = some none := by
  simp only [link, loaded, if_pos bottom]

theorem step_of_loaded (loaded : ioLoadBlockHeader disk hash = .ok (some header))
    (nonzero : header.height ≠ 0) : Walk.Step disk.link hash header.prevHash := by
  simp only [Walk.Step, link, loaded, if_neg nonzero]

theorem present_of_loaded (loaded : ioLoadBlockHeader disk hash = .ok (some header)) :
    (disk.link hash).isSome := by
  simp only [link, loaded, Option.isSome_some]

theorem exists_loaded_of_present (present : (disk.link hash).isSome) :
    ∃ header, ioLoadBlockHeader disk hash = .ok (some header) := by
  rw [link] at present
  split at present
  · rename_i header loaded
    exact ⟨header, loaded⟩
  · cases present

theorem exists_loaded_of_step {parent : Digest} (step : Walk.Step disk.link hash parent) :
    ∃ header, ioLoadBlockHeader disk hash = .ok (some header) ∧ header.height ≠ 0 ∧
      header.prevHash = parent := by
  obtain ⟨header, loaded⟩ := exists_loaded_of_present step.present
  by_cases bottom : header.height = 0
  · cases (link_of_bottom loaded bottom).symm.trans step
  · exact ⟨header, loaded, bottom, (step_of_loaded loaded bottom).unique step⟩

/-- The file of a hash begins with a header. -/
def HoldsHeader (disk : Disk) (hash : Digest) (header : BlockHeader) : Prop :=
  ∃ content, blockFile disk hash = some content ∧ blockHeaderDeserialize content = .ok header

theorem HoldsHeader.unique {other : BlockHeader} (holds : disk.HoldsHeader hash header)
    (also : disk.HoldsHeader hash other) : header = other := by
  obtain ⟨content, found, read⟩ := holds
  obtain ⟨_, sameFile, readAlso⟩ := also
  cases found.symm.trans sameFile
  exact Except.ok.inj (read.symm.trans readAlso)

theorem holdsHeader_of_loaded (loaded : ioLoadBlockHeader disk hash = .ok (some header)) :
    disk.HoldsHeader hash header := by
  obtain ⟨content, found, _, read⟩ := ioLoadBlockHeader_eq_some.mp loaded
  exact ⟨content, found, read⟩

theorem stored_of_loaded (loaded : ioLoadBlockHeader disk hash = .ok (some header)) :
    disk.Stored hash := by
  obtain ⟨content, found, _⟩ := holdsHeader_of_loaded loaded
  rw [Stored, found]
  rfl

theorem exists_loaded_of_stored (readable : disk.Readable) (stored : disk.Stored hash) :
    ∃ header, ioLoadBlockHeader disk hash = .ok (some header) := by
  obtain ⟨loaded, load⟩ := readable hash
  cases loaded with
  | some header => exact ⟨header, load⟩
  | none =>
      rw [Stored, ioLoadBlockHeader_eq_none.mp load] at stored
      cases stored

/-- Headers are loaded from the block files alone. -/
theorem SameFiles.ioLoadBlockHeader_eq {after : Disk} (same : disk.SameFiles after)
    (hash : Digest) : ioLoadBlockHeader after hash = ioLoadBlockHeader disk hash := by
  have file : blockFile after hash = blockFile disk hash := by rw [blockFile, blockFile, same.1]
  rw [ioLoadBlockHeader, ioLoadBlockHeader, ioLoadBlockRaw_congr file]

theorem SameFiles.link_eq {after : Disk} (same : disk.SameFiles after) :
    after.link = disk.link := by
  funext hash
  rw [link, link, same.ioLoadBlockHeader_eq]

end Disk

/-! ## What is loaded -/

/-- The loads of a walk that also stops at certain hashes. -/
def walkLoads (disk : Disk) (stops : Digest → Prop) [DecidablePred stops] :
    (fuel : Nat) → (hash : Digest) → Run (List (Digest × BlockHeader))
  | 0, _ => .error .outOfFuel
  | fuel + 1, hash => do
      match ← ioLoadBlockHeader disk hash with
      | none => .ok []
      | some header =>
          if stops hash ∨ header.height = 0 then .ok [(hash, header)]
          else do
            let loads ← walkLoads disk stops fuel header.prevHash
            return (hash, header) :: loads

/-- Nor does a walk look at the heads. -/
theorem Disk.SameFiles.walkLoads_eq {disk after : Disk} (same : disk.SameFiles after)
    (stops : Digest → Prop) [DecidablePred stops] (fuel : Nat) (hash : Digest) :
    walkLoads after stops fuel hash = walkLoads disk stops fuel hash := by
  induction fuel generalizing hash with
  | zero => rfl
  | succ fuel ih => simp only [walkLoads, same.ioLoadBlockHeader_eq, ih]

section Loads

variable {disk : Disk} {hash : Digest} {fuel : Nat} {stops : Digest → Prop} [DecidablePred stops]

/-- The walk of `enchain_block` stops at the block it looks for. -/
theorem fst_enchainWalkLoads (disk : Disk) (blockHash : Digest) (fuel : Nat) (hash : Digest) :
    Prod.fst <$> enchainWalkLoads disk blockHash fuel hash =
      walkLoads disk (· = blockHash) fuel hash := by
  induction fuel generalizing hash with
  | zero => rfl
  | succ fuel ih =>
      rw [enchainWalkLoads, walkLoads, map_bind]
      refine bind_congr fun loaded => ?_
      cases loaded with
      | none => rfl
      | some header =>
          dsimp only
          by_cases here : hash = blockHash
          · rw [if_pos here, if_pos (Or.inl here)]
            rfl
          · by_cases bottom : header.height = 0
            · rw [if_neg here, if_pos bottom, if_pos (Or.inr bottom)]
              rfl
            · rw [if_neg here, if_neg bottom, if_neg (not_or.mpr ⟨here, bottom⟩), ← ih, map_bind,
                bind_map_left]
              rfl

/-- The walk of `chain_clean` stops at no block; the heads it deletes are not what it loads. -/
theorem fst_chainCleanWalkLoads (heads : List Head) (i fuel : Nat) (hash : Digest) (disk : Disk) :
    Prod.fst <$> chainCleanWalkLoads heads i fuel hash disk =
      walkLoads disk (fun _ => False) fuel hash := by
  induction fuel generalizing hash disk with
  | zero => rfl
  | succ fuel ih =>
      rw [chainCleanWalkLoads, walkLoads, map_bind]
      refine bind_congr fun loaded => ?_
      cases loaded with
      | none => rfl
      | some header =>
          dsimp only
          by_cases bottom : header.height = 0
          · rw [if_pos bottom, if_pos (Or.inr bottom)]
            rfl
          · have same := sameFiles_deletions hash i heads.zipIdx disk
            rw [if_neg bottom, if_neg (not_or.mpr ⟨not_false, bottom⟩), map_bind,
              ← same.walkLoads_eq, ← ih, bind_map_left]
            rfl

/-- A walk loads what its trail visits. -/
theorem exists_walkLoads (readable : disk.Readable) {visited : List Digest}
    (ends : Walk.trail (Walk.stopAt disk.link stops) fuel hash = some visited) :
    ∃ loads, walkLoads disk stops fuel hash = .ok loads ∧ loads.map Prod.fst = visited := by
  induction fuel generalizing hash visited with
  | zero => cases ends
  | succ fuel ih =>
      obtain ⟨loaded, load⟩ := readable hash
      rw [walkLoads, load, Run.ok_bind]
      cases loaded with
      | none =>
          have missing : Walk.stopAt disk.link stops hash = none := by
            rw [← Option.isNone_iff_eq_none, ← Option.not_isSome, Walk.isSome_stopAt,
              Disk.link_of_missing load]
            rfl
          rw [Walk.trail_of_none missing] at ends
          exact ⟨[], rfl, Option.some.inj ends⟩
      | some header =>
          by_cases last : stops hash ∨ header.height = 0
          · have end_here : Walk.stopAt disk.link stops hash = some none := by
              by_cases stopped : stops hash
              · obtain ⟨after, present⟩ :=
                  Option.isSome_iff_exists.mp (Disk.present_of_loaded load)
                rw [Walk.stopAt_of_stops stopped, present, Option.map_some]
              · rw [Walk.stopAt_of_not stopped]
                exact Disk.link_of_bottom load (last.resolve_left stopped)
            rw [Walk.trail_of_last end_here] at ends
            exact ⟨[(hash, header)], if_pos last, Option.some.inj ends⟩
          · have passed := not_or.mp last
            have step : Walk.Step (Walk.stopAt disk.link stops) hash header.prevHash := by
              rw [Walk.Step, Walk.stopAt_of_not passed.1]
              exact Disk.step_of_loaded load passed.2
            rw [Walk.trail_of_step step] at ends
            obtain ⟨rest, walked, whole⟩ := Option.map_eq_some_iff.mp ends
            obtain ⟨loads, loaded, same⟩ := ih walked
            refine ⟨(hash, header) :: loads, ?_, ?_⟩
            · simp only [if_neg last, loaded, Run.ok_bind, Run.pure_eq_ok]
            · rw [List.map_cons, same, ← whole]

end Loads

/-! ## The walk of `enchain_block` -/

/-- A walk that returns has met the block exactly if the block is visited. -/
theorem enchainWalk_eq_true_iff {disk : Disk} {blockHash hash : Digest} {fuel : Nat} {met : Bool}
    (walked : enchainWalk disk blockHash fuel hash = .ok met) :
    met = true ↔ Walk.Visits disk.link hash blockHash := by
  induction fuel generalizing hash with
  | zero => cases walked
  | succ fuel ih =>
      rw [enchainWalk_succ, Run.bind_eq_ok] at walked
      obtain ⟨loaded, load, rest⟩ := walked
      cases loaded with
      | none =>
          obtain rfl := Except.ok.inj rest
          refine iff_of_false (by decide) fun visits => ?_
          have present := visits.start_present
          rw [Disk.link_of_missing load] at present
          cases present
      | some header =>
          simp only at rest
          by_cases here : hash = blockHash
          · rw [if_pos here] at rest
            obtain rfl := Except.ok.inj rest
            subst here
            exact iff_of_true rfl (.self (Disk.present_of_loaded load))
          · rw [if_neg here] at rest
            by_cases bottom : header.height = 0
            · rw [if_pos bottom] at rest
              obtain rfl := Except.ok.inj rest
              refine iff_of_false (by decide) fun visits => ?_
              rcases visits.cases_start with same | ⟨parent, step, _⟩
              · exact here same.symm
              · cases (Disk.link_of_bottom load bottom).symm.trans step
            · rw [if_neg bottom] at rest
              have step := Disk.step_of_loaded load bottom
              rw [ih rest]
              constructor
              · exact fun visits => visits.head step
              · intro visits
                rcases visits.cases_start with same | ⟨parent, toParent, later⟩
                · exact absurd same.symm here
                · rwa [step.unique toParent]

/-- The walk returns within the budget of the trail that stops at the block. -/
theorem exists_enchainWalkLoads {disk : Disk} (readable : disk.Readable) {blockHash hash : Digest}
    {fuel : Nat} {visited : List Digest}
    (ends : Walk.trail (Walk.stopAt disk.link (· = blockHash)) fuel hash = some visited) :
    ∃ loads met, enchainWalkLoads disk blockHash fuel hash = .ok (loads, met) ∧
      loads.map Prod.fst = visited := by
  obtain ⟨loads, walked, same⟩ := exists_walkLoads readable ends
  rw [← fst_enchainWalkLoads, Run.map_eq_ok] at walked
  obtain ⟨⟨_, met⟩, returned, rfl⟩ := walked
  exact ⟨_, met, returned, same⟩

theorem exists_enchainWalk {disk : Disk} (readable : disk.Readable) {blockHash hash : Digest}
    {fuel : Nat} {visited : List Digest}
    (ends : Walk.trail (Walk.stopAt disk.link (· = blockHash)) fuel hash = some visited) :
    ∃ met, enchainWalk disk blockHash fuel hash = .ok met := by
  obtain ⟨loads, met, walked, _⟩ := exists_enchainWalkLoads readable ends
  exact ⟨met, enchainWalk_eq_ok.mpr ⟨loads, walked⟩⟩

/-! ## The walk of `chain_clean` -/

/-- Another head than number `i` names the hash. -/
def MeetsOther (heads : List Head) (i : Nat) (hash : Digest) : Prop :=
  ∃ walk ∈ heads.zipIdx, walk.2 ≠ i ∧ hash = walk.1.hash

instance (heads : List Head) (i : Nat) (hash : Digest) : Decidable (MeetsOther heads i hash) :=
  inferInstanceAs (Decidable (∃ walk ∈ heads.zipIdx, walk.2 ≠ i ∧ hash = walk.1.hash))

/-- Of the heads exactly those in `dropped` are gone; their order and the files are as before. -/
structure Disk.Drops (disk after : Disk) (dropped : Head → Prop) : Prop where
  files : disk.SameFiles after
  heads : ∃ keep : Head → Bool, after.heads = disk.heads.filter keep ∧
    ∀ head ∈ disk.heads, keep head = true ↔ ¬ dropped head

namespace Disk.Drops

variable {disk middle after : Disk} {dropped early late : Head → Prop}

theorem none (disk : Disk) (nothing : ∀ head ∈ disk.heads, ¬ dropped head) :
    disk.Drops disk dropped :=
  ⟨.refl disk, fun _ => true, by simp, fun head member => iff_of_true rfl (nothing head member)⟩

theorem trans (first : disk.Drops middle early) (second : middle.Drops after late) :
    disk.Drops after fun head => early head ∨ late head := by
  obtain ⟨keepEarly, heads_eq, early_iff⟩ := first.heads
  obtain ⟨keepLate, after_eq, late_iff⟩ := second.heads
  refine ⟨first.files.trans second.files, fun head => keepLate head && keepEarly head, ?_, ?_⟩
  · rw [after_eq, heads_eq, List.filter_filter]
  · intro head member
    rw [Bool.and_eq_true, not_or, ← early_iff head member, and_comm]
    refine and_congr_right fun kept => late_iff head ?_
    rw [heads_eq, List.mem_filter]
    exact ⟨member, kept⟩

theorem congr (drops : disk.Drops after early)
    (same : ∀ head ∈ disk.heads, early head ↔ late head) : disk.Drops after late := by
  obtain ⟨files, keep, heads_eq, keep_iff⟩ := drops
  exact ⟨files, keep, heads_eq, fun head member => by rw [keep_iff head member, same head member]⟩

theorem mem_iff (drops : disk.Drops after dropped) {head : Head} :
    head ∈ after.heads ↔ head ∈ disk.heads ∧ ¬ dropped head := by
  obtain ⟨_, keep, heads_eq, keep_iff⟩ := drops
  rw [heads_eq, List.mem_filter]
  exact and_congr_right fun member => keep_iff head member

theorem sublist (drops : disk.Drops after dropped) : after.heads.Sublist disk.heads := by
  obtain ⟨_, keep, heads_eq, _⟩ := drops
  rw [heads_eq]
  exact List.filter_sublist

/-- Nothing changes when nothing is dropped. -/
theorem eq_of_none (drops : disk.Drops after dropped)
    (nothing : ∀ head ∈ disk.heads, ¬ dropped head) : after = disk := by
  obtain ⟨files, keep, heads_eq, keep_iff⟩ := drops
  have all : disk.heads.filter keep = disk.heads :=
    List.filter_eq_self.mpr fun head member => (keep_iff head member).mpr (nothing head member)
  rw [all] at heads_eq
  obtain ⟨blocks_eq, txindex_eq⟩ := files
  obtain ⟨blocks, txindex, heads⟩ := after
  obtain rfl := blocks_eq
  obtain rfl := txindex_eq
  obtain rfl := heads_eq
  rfl

end Disk.Drops

theorem ioHeadDelete_twice (disk : Disk) (hash : Digest) :
    ioHeadDelete (ioHeadDelete disk hash) hash = ioHeadDelete disk hash := by
  simp [ioHeadDelete]

/-- The deletions for one visited hash: the second time there is nothing left to delete. -/
theorem deletions_eq (hash : Digest) (i : Nat) (walks : List (Head × Nat)) (disk : Disk) :
    walks.foldl (fun disk (head, k) =>
        if k ≠ i ∧ hash = head.hash then ioHeadDelete disk hash else disk) disk =
      if ∃ walk ∈ walks, walk.2 ≠ i ∧ hash = walk.1.hash then ioHeadDelete disk hash
      else disk := by
  induction walks generalizing disk with
  | nil => simp
  | cons walk walks ih =>
      obtain ⟨head, k⟩ := walk
      rw [List.foldl_cons, ih]
      change (if _ then
          ioHeadDelete (if k ≠ i ∧ hash = head.hash then ioHeadDelete disk hash else disk) hash
        else if k ≠ i ∧ hash = head.hash then ioHeadDelete disk hash else disk) = _
      by_cases here : k ≠ i ∧ hash = head.hash
      · have found : ∃ walk ∈ (head, k) :: walks, walk.2 ≠ i ∧ hash = walk.1.hash :=
          ⟨(head, k), List.mem_cons_self, here⟩
        rw [if_pos found, if_pos here, ioHeadDelete_twice, ite_self]
      · have later : (∃ walk ∈ (head, k) :: walks, walk.2 ≠ i ∧ hash = walk.1.hash) ↔
            ∃ walk ∈ walks, walk.2 ≠ i ∧ hash = walk.1.hash := by
          rw [List.exists_mem_cons_iff, or_iff_right here]
        rw [if_neg here]
        simp only [later]

theorem drops_deletions (heads : List Head) (i : Nat) (hash : Digest) (disk : Disk) :
    disk.Drops (heads.zipIdx.foldl (fun disk (head, k) =>
        if k ≠ i ∧ hash = head.hash then ioHeadDelete disk hash else disk) disk)
      fun head => head.hash = hash ∧ MeetsOther heads i hash := by
  rw [deletions_eq]
  by_cases meets : MeetsOther heads i hash
  · refine ⟨⟨?_, ?_⟩, fun head => head.hash ≠ hash, ?_, fun head _ => by simp [meets]⟩
    all_goals rw [if_pos (show ∃ walk ∈ heads.zipIdx, walk.2 ≠ i ∧ hash = walk.1.hash from meets)]
    all_goals rfl
  · rw [if_neg (show ¬ ∃ walk ∈ heads.zipIdx, walk.2 ≠ i ∧ hash = walk.1.hash from meets)]
    exact .none disk fun head _ dropped => meets dropped.2

/-- A walk of `chain_clean` that returns has deleted the visited heads that are not its own. -/
theorem drops_of_chainCleanWalk {heads : List Head} {i fuel : Nat} {hash : Digest}
    {disk after : Disk} (cleaned : chainCleanWalk heads i fuel hash disk = .ok after) :
    disk.Drops after fun head =>
      Walk.Visits disk.link hash head.hash ∧ MeetsOther heads i head.hash := by
  induction fuel generalizing hash disk with
  | zero => cases cleaned
  | succ fuel ih =>
      rw [chainCleanWalk_succ, Run.bind_eq_ok] at cleaned
      obtain ⟨loaded, load, rest⟩ := cleaned
      cases loaded with
      | none =>
          obtain rfl := Except.ok.inj rest
          refine .none disk fun head _ dropped => ?_
          have present := dropped.1.start_present
          rw [Disk.link_of_missing load] at present
          cases present
      | some header =>
          have deleted := drops_deletions heads i hash disk
          have present := Disk.present_of_loaded load
          simp only at rest
          by_cases bottom : header.height = 0
          · rw [if_pos bottom] at rest
            rw [← Except.ok.inj rest]
            refine deleted.congr fun head _ => ?_
            constructor
            · rintro ⟨rfl, meets⟩
              exact ⟨.self present, meets⟩
            · rintro ⟨visits, meets⟩
              rcases visits.cases_start with same | ⟨parent, step, _⟩
              · exact ⟨same, same ▸ meets⟩
              · cases (Disk.link_of_bottom load bottom).symm.trans step
          · rw [if_neg bottom] at rest
            have step := Disk.step_of_loaded load bottom
            have later := ih rest
            rw [deleted.files.link_eq] at later
            refine (deleted.trans later).congr fun head _ => ?_
            constructor
            · rintro (⟨rfl, meets⟩ | ⟨visits, meets⟩)
              · exact ⟨.self present, meets⟩
              · exact ⟨visits.head step, meets⟩
            · rintro ⟨visits, meets⟩
              rcases visits.cases_start with same | ⟨parent, toParent, later⟩
              · exact Or.inl ⟨same, same ▸ meets⟩
              · exact Or.inr ⟨step.unique toParent ▸ later, meets⟩

theorem exists_chainCleanWalkLoads {heads : List Head} {i fuel : Nat} {hash : Digest} {disk : Disk}
    (readable : disk.Readable) {visited : List Digest}
    (ends : Walk.trail disk.link fuel hash = some visited) :
    ∃ loads after, chainCleanWalkLoads heads i fuel hash disk = .ok (loads, after) ∧
      loads.map Prod.fst = visited := by
  rw [← Walk.stopAt_nowhere disk.link] at ends
  obtain ⟨loads, walked, same⟩ := exists_walkLoads readable ends
  rw [← fst_chainCleanWalkLoads heads i, Run.map_eq_ok] at walked
  obtain ⟨⟨_, after⟩, returned, rfl⟩ := walked
  exact ⟨_, after, returned, same⟩

theorem exists_chainCleanWalk {heads : List Head} {i fuel : Nat} {hash : Digest} {disk : Disk}
    (readable : disk.Readable) {visited : List Digest}
    (ends : Walk.trail disk.link fuel hash = some visited) :
    ∃ after, chainCleanWalk heads i fuel hash disk = .ok after := by
  obtain ⟨loads, after, walked, _⟩ := @exists_chainCleanWalkLoads heads i _ _ _ readable _ ends
  exact ⟨after, chainCleanWalk_eq_ok.mpr ⟨loads, walked⟩⟩

/-! ## Stores of saved blocks -/

/-- Blocks are kept under the hashes of their headers. -/
def Disk.NamedByHash (sha256 : List UInt8 → Digest) (disk : Disk) : Prop :=
  ∀ hash header, ioLoadBlockHeader disk hash = .ok (some header) → sha256 header.bytes = hash

/-- The block that is saved last under a hash fits the buffer that headers are loaded through. -/
def LastSavesFit (sha256 : List UInt8 → Digest) (saves : List (List UInt8)) : Prop :=
  ∀ before src later, saves = before ++ src :: later →
    (∀ other ∈ later, blockRawComputeHash sha256 other ≠ blockRawComputeHash sha256 src) →
    ∀ size, blockRawComputeSize src = .ok size → size.toNat ≤ maxBlockSize

section Saved

variable {sha256 : List UInt8 → Digest} {fuel : Nat} {start disk : Disk} {raws : List RawBlock}

theorem lastSavesFit_iff
    (addressable : ∀ raw ∈ raws, raw.offset (raw.txs.length - 1) < 2 ^ 31) :
    LastSavesFit sha256 (raws.map RawBlock.bytes) ↔
      ∀ hash, ∀ raw ∈ latest (RawBlock.hash sha256) raws hash,
        raw.offset raw.txs.length ≤ maxBlockSize := by
  have size_eq : ∀ raw ∈ raws, ∃ size, blockRawComputeSize raw.bytes = .ok size ∧
      size.toNat = raw.offset raw.txs.length := by
    intro raw member
    have behind := raw.offset_end_lt (addressable raw member)
    exact ⟨_, raw.blockRawComputeSize_eq (addressable raw member),
      toNat_ofNat_of_lt (by omega)⟩
  constructor
  · intro fit hash raw found
    obtain ⟨before, later, rfl, rfl, last⟩ := (latest_eq_some_iff _).mp found
    obtain ⟨size, sized, same⟩ := size_eq raw (by simp)
    rw [← same]
    refine fit (before.map RawBlock.bytes) raw.bytes (later.map RawBlock.bytes) (by simp)
      (fun other member => ?_) size sized
    obtain ⟨otherRaw, otherMember, rfl⟩ := List.mem_map.mp member
    rw [RawBlock.blockRawComputeHash_eq, RawBlock.blockRawComputeHash_eq]
    exact fun hashes => last otherRaw otherMember (Except.ok.inj hashes)
  · intro fit before src later split last size sized
    obtain ⟨front, rest, rfl, rfl, behind⟩ := List.map_eq_append_iff.mp split
    obtain ⟨raw, back, rfl, rfl, rfl⟩ := List.map_eq_cons_iff.mp behind
    obtain ⟨_, sizedRaw, same⟩ := size_eq raw (by simp)
    obtain rfl := Except.ok.inj (sized.symm.trans sizedRaw)
    rw [same]
    refine fit (raw.hash sha256) raw
      ((latest_eq_some_iff _).mpr ⟨front, back, rfl, rfl, fun other member hashes => ?_⟩)
    refine last other.bytes (List.mem_map_of_mem member) ?_
    rw [RawBlock.blockRawComputeHash_eq, RawBlock.blockRawComputeHash_eq]
    exact congrArg Except.ok hashes

variable (fresh : ∀ name, start.blocks name = none)
  (saved : saveAll sha256 fuel (raws.map RawBlock.bytes) start = .ok disk)

include fresh saved

/-- Under a hash is the last block saved with it. -/
theorem blockFile_of_saveAll_fresh (hash : Digest) :
    blockFile disk hash = (latest (RawBlock.hash sha256) raws hash).map RawBlock.content := by
  have absent : blockFile start hash = none := fresh _
  rw [blockFile_saveAll saved hash, absent, Option.or_none]

theorem holdsHeader_iff_latest {hash : Digest} {header : BlockHeader} :
    disk.HoldsHeader hash header ↔
      ∃ raw, latest (RawBlock.hash sha256) raws hash = some raw ∧ raw.header = header := by
  have read : ∀ raw : RawBlock, blockHeaderDeserialize raw.content = .ok raw.header :=
    fun raw => blockHeaderDeserialize_bytes raw.header _
  simp only [Disk.HoldsHeader, blockFile_of_saveAll_fresh fresh saved hash,
    Option.map_eq_some_iff]
  constructor
  · rintro ⟨_, ⟨raw, found, rfl⟩, deserialized⟩
    exact ⟨raw, found, Except.ok.inj ((read raw).symm.trans deserialized)⟩
  · rintro ⟨raw, found, rfl⟩
    exact ⟨raw.content, ⟨raw, found, rfl⟩, read raw⟩

/-- The header found under a hash is that of the last block saved with it, if that block fits. -/
theorem ioLoadBlockHeader_of_saveAll {hash : Digest}
    (fits : ∀ raw ∈ latest (RawBlock.hash sha256) raws hash,
      raw.offset raw.txs.length ≤ maxBlockSize) :
    ioLoadBlockHeader disk hash =
      .ok ((latest (RawBlock.hash sha256) raws hash).map RawBlock.header) := by
  have content := blockFile_of_saveAll_fresh fresh saved hash
  cases found : latest (RawBlock.hash sha256) raws hash with
  | none =>
      rw [found] at content
      exact ioLoadBlockHeader_of_none content
  | some raw =>
      rw [found] at content
      have header : blockHeaderDeserialize raw.content = .ok raw.header :=
        blockHeaderDeserialize_bytes _ _
      rw [ioLoadBlockHeader_of_some content (by rw [raw.length_content]; exact fits raw found),
        header]
      rfl

/-- Every file can be read through the buffer exactly if the last saves fit it. -/
theorem readable_iff_of_saveAll :
    disk.Readable ↔ LastSavesFit sha256 (raws.map RawBlock.bytes) := by
  rw [lastSavesFit_iff (addressable_of_saveAll saved)]
  constructor
  · intro readable hash raw found
    have stored : disk.Stored hash := by
      rw [Disk.Stored, blockFile_of_saveAll_fresh fresh saved, found]
      rfl
    obtain ⟨header, loaded⟩ := Disk.exists_loaded_of_stored readable stored
    obtain ⟨content, file, fits, _⟩ := ioLoadBlockHeader_eq_some.mp loaded
    rw [blockFile_of_saveAll_fresh fresh saved, found] at file
    rwa [← Option.some.inj file, raw.length_content] at fits
  · exact fun fit hash => ⟨_, ioLoadBlockHeader_of_saveAll fresh saved (fit hash)⟩

end Saved

theorem namedByHash_of_saveAll {sha256 : List UInt8 → Digest} {fuel : Nat} {start disk : Disk}
    {saves : List (List UInt8)} (fresh : ∀ name, start.blocks name = none)
    (saved : saveAll sha256 fuel saves start = .ok disk) : disk.NamedByHash sha256 := by
  obtain ⟨raws, rfl⟩ := exists_rawBlocks_of_saveAll saved
  intro hash header loaded
  obtain ⟨raw, found, rfl⟩ :=
    (holdsHeader_iff_latest fresh saved).mp (Disk.holdsHeader_of_loaded loaded)
  exact (mem_of_latest _ found).2

/-! ## Cycles of hashes -/

/-- Stored headers each of which names the hash of the next, the last that of the first. -/
structure HashCycle (sha256 : List UInt8 → Digest) (disk : Disk) (length : Nat)
    (header : Nat → BlockHeader) : Prop where
  positive : 0 < length
  closed : header length = header 0
  stored : ∀ i < length, disk.HoldsHeader (sha256 (header i).bytes) (header i)
  prev : ∀ i < length, (header i).prevHash = sha256 (header (i + 1)).bytes

/-- Where blocks are named by their hashes, links run in a cycle only along a cycle of hashes. -/
theorem exists_hashCycle {sha256 : List UInt8 → Digest} {disk : Disk}
    (named : disk.NamedByHash sha256) {length : Nat} {element : Nat → Digest}
    (cycle : Walk.Cycle disk.link length element) :
    ∃ header, HashCycle sha256 disk length header := by
  have positive := cycle.positive
  have linked : ∀ i : Nat, ∃ header,
      ioLoadBlockHeader disk (element (i % length)) = .ok (some header) ∧
        header.prevHash = element (i % length + 1) := by
    intro i
    obtain ⟨header, loaded, _, prev⟩ :=
      Disk.exists_loaded_of_step (cycle.step _ (Nat.mod_lt i positive))
    exact ⟨header, loaded, prev⟩
  choose header loaded prev using linked
  refine ⟨header, positive, ?_, fun i _ => ?_, fun i inside => ?_⟩
  · have last := loaded length
    rw [Nat.mod_self, ← Nat.zero_mod length, loaded 0] at last
    exact (Option.some.inj (Except.ok.inj last)).symm
  · rw [named _ _ (loaded i)]
    exact Disk.holdsHeader_of_loaded (loaded i)
  · rw [prev i, named _ _ (loaded (i + 1)), Nat.mod_eq_of_lt inside]
    rcases Nat.eq_or_lt_of_le (show i + 1 ≤ length from inside) with last | before
    · rw [last, Nat.mod_self, cycle.closed]
    · rw [Nat.mod_eq_of_lt before]

/-- The block passed the time test of `validate_block_chain` against its stored predecessor. -/
def PassedTimeTest (disk : Disk) (block : Block) : Prop :=
  ∃ primitives loadNthTxOutput blockAtHeight leftovers prevBlock,
    (disk.store loadNthTxOutput blockAtHeight).loadBlock block.header.prevHash =
      .ok (some prevBlock) ∧
    validateBlockChain primitives (disk.store loadNthTxOutput blockAtHeight) leftovers block ≠
      .ok errBlockBadTime

theorem holdsHeader_of_mIoLoadBlock {disk : Disk} {hash : Digest} {block : Block}
    (loaded : mIoLoadBlock disk hash = .ok (some block)) : disk.HoldsHeader hash block.header := by
  obtain ⟨content, found, _, deserialized⟩ := mIoLoadBlock_eq_some.mp loaded
  simp only [mBlockDeserialize, Run.bind_eq_ok] at deserialized
  obtain ⟨header, read, txs, _, whole⟩ := deserialized
  obtain rfl := Except.ok.inj whole
  exact ⟨content, found, read⟩

/-- A block of nonzero height that passed the test is later than its predecessor. -/
theorem PassedTimeTest.exists_earlier {disk : Disk} {block : Block}
    (passed : PassedTimeTest disk block) (nonzero : block.header.height ≠ 0) :
    ∃ prev, disk.HoldsHeader block.header.prevHash prev ∧ prev.time < block.header.time := by
  obtain ⟨primitives, _, _, leftovers, prevBlock, stored, verdict⟩ := passed
  refine ⟨prevBlock.header, holdsHeader_of_mIoLoadBlock stored, ?_⟩
  by_contra notLater
  have earlier : block.header.time ≤ prevBlock.header.time := UInt32.not_lt.mp notLater
  apply verdict
  rw [validateBlockChain, if_neg nonzero, stored, Run.ok_bind]
  simp only [earlier, if_true]
  rfl

/-- Along a cycle times would decrease for ever. -/
theorem not_hashCycle_of_passed {sha256 : List UInt8 → Digest} {disk : Disk} {length : Nat}
    {header : Nat → BlockHeader} (cycle : HashCycle sha256 disk length header)
    (tested : ∀ i < length, (header i).height ≠ 0 ∧
      ∃ block, block.header = header i ∧ PassedTimeTest disk block) : False := by
  have stored : ∀ i ≤ length, disk.HoldsHeader (sha256 (header i).bytes) (header i) := by
    intro i inside
    rcases Nat.eq_or_lt_of_le inside with rfl | before
    · rw [cycle.closed]
      exact cycle.stored 0 cycle.positive
    · exact cycle.stored i before
  have step : ∀ i < length, (header (i + 1)).time < (header i).time := by
    intro i inside
    obtain ⟨nonzero, block, header_eq, passed⟩ := tested i inside
    rw [← header_eq] at nonzero
    obtain ⟨prev, holds, earlier⟩ := passed.exists_earlier nonzero
    rw [header_eq, cycle.prev i inside] at holds
    rwa [(stored (i + 1) inside).unique holds, ← header_eq]
  have decreasing : ∀ i < length, (header (i + 1)).time < (header 0).time := by
    intro i inside
    induction i with
    | zero => exact step 0 inside
    | succ i ih => exact UInt32.lt_trans (step (i + 1) inside) (ih (Nat.lt_of_succ_lt inside))
  have last := decreasing (length - 1) (Nat.sub_lt cycle.positive Nat.one_pos)
  rw [Nat.sub_add_cancel cycle.positive, cycle.closed] at last
  exact UInt32.lt_irrefl _ last

/-! ## The walks end -/

/-- The number of blocks kept. -/
noncomputable def Disk.blockCount (disk : Disk) : Nat := Set.ncard { hash | disk.Stored hash }

/-- From a hash both walks stop, having loaded no header twice and no more than `count`. -/
structure WalksEnd (disk : Disk) (count : Nat) (hash : Digest) : Prop where
  enchain : ∀ blockHash, ∃ loads met,
    enchainWalkLoads disk blockHash (count + 1) hash = .ok (loads, met) ∧
      (loads.map Prod.fst).Nodup ∧ loads.length ≤ count
  clean : ∀ heads i, ∃ loads after,
    chainCleanWalkLoads heads i (count + 1) hash disk = .ok (loads, after) ∧
      (loads.map Prod.fst).Nodup ∧ loads.length ≤ count

theorem walksEnd_or_cycle {disk : Disk} (readable : disk.Readable) (hash : Digest) :
    WalksEnd disk disk.blockCount hash ∨ ∃ length element, Walk.Cycle disk.link length element := by
  have finite : { hash | disk.Stored hash }.Finite := Set.toFinite _
  have covers : ∀ hash, (disk.link hash).isSome → hash ∈ { hash | disk.Stored hash } := by
    intro hash present
    obtain ⟨header, loaded⟩ := Disk.exists_loaded_of_present present
    exact Disk.stored_of_loaded loaded
  by_cases cyclic : ∃ length element, Walk.Cycle disk.link length element
  · exact Or.inr cyclic
  · refine Or.inl ⟨fun blockHash => ?_, fun heads i => ?_⟩
    · have coversStop : ∀ hash, (Walk.stopAt disk.link (· = blockHash) hash).isSome →
          hash ∈ { hash | disk.Stored hash } := by
        intro hash present
        rw [Walk.isSome_stopAt] at present
        exact covers hash present
      rcases Walk.trail_or_cycle finite coversStop hash with
        ⟨visited, ends, distinct, few⟩ | ⟨length, element, cycle⟩
      · obtain ⟨loads, met, walked, rfl⟩ := exists_enchainWalkLoads readable ends
        exact ⟨loads, met, walked, distinct, by rwa [List.length_map] at few⟩
      · exact absurd ⟨length, element, cycle.of_stopAt⟩ cyclic
    · rcases Walk.trail_or_cycle finite covers hash with
        ⟨visited, ends, distinct, few⟩ | cycle
      · obtain ⟨loads, after, walked, rfl⟩ :=
          @exists_chainCleanWalkLoads heads i _ _ _ readable _ ends
        exact ⟨loads, after, walked, distinct, by rwa [List.length_map] at few⟩
      · exact absurd cycle cyclic

/-- A walk that ends has read its first file. -/
theorem WalksEnd.readable {disk : Disk} {count : Nat} (ends : ∀ hash, WalksEnd disk count hash) :
    disk.Readable := by
  intro hash
  obtain ⟨_, _, walked, _⟩ := (ends hash).clean [] 0
  rw [chainCleanWalkLoads, Run.bind_eq_ok] at walked
  obtain ⟨loaded, load, _⟩ := walked
  exact ⟨loaded, load⟩

/-- The walks from any hash stop after loading each header at most once, or stored headers form a
cycle of hashes; and the blocks of nonzero height that passed the time test form none. -/
structure WalksBounded (sha256 : List UInt8 → Digest) (disk : Disk) : Prop where
  ends : ∀ hash, WalksEnd disk disk.blockCount hash ∨
    ∃ length header, HashCycle sha256 disk length header
  tested : ¬ ∃ length header, HashCycle sha256 disk length header ∧
    ∀ i < length, (header i).height ≠ 0 ∧
      ∃ block, block.header = header i ∧ PassedTimeTest disk block

/-- In a store that was filled by saving blocks, the backward walks are bounded by the number of
blocks, except along cycles of hashes, exactly if the last block saved under each hash fits the
buffer that headers are loaded through, or there is such a cycle. -/
theorem walksBounded_iff (sha256 : List UInt8 → Digest) (fuel : Nat)
    (saves : List (List UInt8)) (start disk : Disk) (fresh : ∀ name, start.blocks name = none)
    (saved : saveAll sha256 fuel saves start = .ok disk) :
    WalksBounded sha256 disk ↔
      LastSavesFit sha256 saves ∨ ∃ length header, HashCycle sha256 disk length header := by
  obtain ⟨raws, rfl⟩ := exists_rawBlocks_of_saveAll saved
  rw [← readable_iff_of_saveAll fresh saved]
  constructor
  · intro bounded
    by_cases cyclic : ∃ length header, HashCycle sha256 disk length header
    · exact Or.inr cyclic
    · exact Or.inl (WalksEnd.readable fun hash => (bounded.ends hash).resolve_right cyclic)
  · intro condition
    refine ⟨fun hash => ?_, ?_⟩
    · rcases condition with readable | cyclic
      · rcases walksEnd_or_cycle readable hash with ends | ⟨length, element, cycle⟩
        · exact Or.inl ends
        · obtain ⟨header, hashCycle⟩ := exists_hashCycle (namedByHash_of_saveAll fresh saved) cycle
          exact Or.inr ⟨length, header, hashCycle⟩
      · exact Or.inr cyclic
    · rintro ⟨length, header, cycle, tested⟩
      exact not_hashCycle_of_passed cycle tested

/-- The headers of a cycle were saved, and the hash of one is in another. -/
theorem HashCycle.exists_prev {sha256 : List UInt8 → Digest} {fuel : Nat} {start disk : Disk}
    {raws : List RawBlock} (fresh : ∀ name, start.blocks name = none)
    (saved : saveAll sha256 fuel (raws.map RawBlock.bytes) start = .ok disk) {length : Nat}
    {header : Nat → BlockHeader} (cycle : HashCycle sha256 disk length header) {i : Nat}
    (inside : i < length) :
    ∃ raw ∈ raws, ∃ prev ∈ raws, raw.header = header i ∧ prev.header = header (i + 1) ∧
      raw.header.prevHash = prev.hash sha256 := by
  have member : ∀ k < length, ∃ raw ∈ raws, raw.header = header k := by
    intro k before
    obtain ⟨raw, found, same⟩ := (holdsHeader_iff_latest fresh saved).mp (cycle.stored k before)
    exact ⟨raw, (mem_of_latest _ found).1, same⟩
  obtain ⟨raw, rawMember, rawHeader⟩ := member i inside
  obtain ⟨prev, prevMember, prevHeader⟩ : ∃ raw ∈ raws, raw.header = header (i + 1) := by
    rcases Nat.eq_or_lt_of_le (show i + 1 ≤ length from inside) with last | before
    · rw [last, cycle.closed]
      exact member 0 cycle.positive
    · exact member (i + 1) before
  refine ⟨raw, rawMember, prev, prevMember, rawHeader, prevHeader, ?_⟩
  rw [rawHeader, cycle.prev i inside, RawBlock.hash, prevHeader]

/-- A block on top of the first one. -/
def nextBlock : RawBlock :=
  { rootBlock with
    header := { rootBlock.header with time := 1, height := 1, prevHash := rootBlock.hash sha256 } }

theorem nextBlock_hash_ne : rootBlock.hash sha256 ≠ nextBlock.hash sha256 := by decide +kernel

/-- The two blocks saved in either order are found again. -/
theorem exists_saved_nextBlock {raws : List RawBlock}
    (both : raws = [rootBlock, nextBlock] ∨ raws = [nextBlock, rootBlock]) :
    ∃ disk, saveAll sha256 0 (raws.map RawBlock.bytes) Disk.empty = .ok disk ∧
      LastSavesFit sha256 (raws.map RawBlock.bytes) ∧
      ioLoadBlockHeader disk (nextBlock.hash sha256) = .ok (some nextBlock.header) ∧
      ioLoadBlockHeader disk (rootBlock.hash sha256) = .ok (some rootBlock.header) := by
  have differ := nextBlock_hash_ne
  have headless : Disk.empty.heads = [] := rfl
  have small : ∀ raw ∈ raws, raw.offset raw.txs.length ≤ maxBlockSize := by
    intro raw member
    have empty : raw.txs = [] := by
      rcases both with rfl | rfl <;> rcases List.mem_pair.mp member with rfl | rfl <;> rfl
    simp [RawBlock.offset, empty, sizeBlockHeader, maxBlockSize]
  obtain ⟨disk, saved⟩ := @exists_saveAll sha256 0 raws Disk.empty headless small
  have fit : ∀ hash, ∀ raw ∈ latest (RawBlock.hash sha256) raws hash,
      raw.offset raw.txs.length ≤ maxBlockSize :=
    fun hash raw found => small raw (mem_of_latest _ found).1
  refine ⟨disk, saved, (lastSavesFit_iff (addressable_of_saveAll saved)).mpr fit, ?_, ?_⟩
  · rw [ioLoadBlockHeader_of_saveAll (fun _ => rfl) saved (fit _)]
    rcases both with rfl | rfl <;> simp [latest, differ]
  · rw [ioLoadBlockHeader_of_saveAll (fun _ => rfl) saved (fit _)]
    rcases both with rfl | rfl <;> simp [latest, differ.symm]

/-- What is loaded on the way from the second block to the first. -/
def nextLoads : List (Digest × BlockHeader) :=
  [(nextBlock.hash sha256, nextBlock.header), (rootBlock.hash sha256, rootBlock.header)]

section NextBlock

variable {disk : Disk}
  (top : ioLoadBlockHeader disk (nextBlock.hash sha256) = .ok (some nextBlock.header))
  (bottom : ioLoadBlockHeader disk (rootBlock.hash sha256) = .ok (some rootBlock.header))

include top bottom

theorem enchainWalkLoads_nextBlock :
    enchainWalkLoads disk (rootBlock.hash sha256) 2 (nextBlock.hash sha256) =
      .ok (nextLoads, true) := by
  have prev : nextBlock.header.prevHash = rootBlock.hash sha256 := rfl
  have high : nextBlock.header.height ≠ 0 := by decide
  rw [enchainWalkLoads, top, Run.ok_bind]
  simp only [if_neg nextBlock_hash_ne.symm, if_neg high, prev]
  rw [enchainWalkLoads, bottom, Run.ok_bind]
  simp only [if_pos]
  rfl

theorem walkLoads_nextBlock :
    walkLoads disk (fun _ => False) 2 (nextBlock.hash sha256) = .ok nextLoads := by
  have prev : nextBlock.header.prevHash = rootBlock.hash sha256 := rfl
  have high : nextBlock.header.height ≠ 0 := by decide
  have low : rootBlock.header.height = 0 := rfl
  rw [walkLoads, top, Run.ok_bind]
  simp only [false_or, if_neg high, prev]
  rw [walkLoads, bottom, Run.ok_bind]
  simp only [false_or, if_pos low]
  rfl

end NextBlock

set_option maxRecDepth 100000 in
theorem rootBlock_prevHash_ne :
    rootBlock.header.prevHash ≠ rootBlock.hash sha256 ∧
      rootBlock.header.prevHash ≠ nextBlock.hash sha256 := by
  decide +kernel

/-- The first block has no predecessor, so the two blocks are in no cycle: from every hash the walks
end, and the walk from the second block to the first loads both headers. -/
theorem walksBounded_nextBlock :
    ∃ disk, saveAll sha256 0 [rootBlock.bytes, nextBlock.bytes] Disk.empty = .ok disk ∧
      (∀ hash, WalksEnd disk disk.blockCount hash) ∧
      enchainWalkLoads disk (rootBlock.hash sha256) 2 (nextBlock.hash sha256) =
        .ok (nextLoads, true) := by
  obtain ⟨disk, saved, fit, top, bottom⟩ := exists_saved_nextBlock (.inl rfl)
  have bounded := (walksBounded_iff sha256 0 _ Disk.empty disk (fun _ => rfl) saved).mpr (.inl fit)
  refine ⟨disk, saved, fun hash => (bounded.ends hash).resolve_right ?_, ?_⟩
  · rintro ⟨length, header, cycle⟩
    have notRoot : ∀ i < length, header i ≠ rootBlock.header := by
      intro i inside same
      obtain ⟨raw, _, prev, prevMember, rawHeader, _, names⟩ :=
        cycle.exists_prev (fun _ => rfl) saved inside
      rw [rawHeader, same] at names
      rcases List.mem_pair.mp prevMember with rfl | rfl
      · exact rootBlock_prevHash_ne.1 names
      · exact rootBlock_prevHash_ne.2 names
    obtain ⟨raw, rawMember, prev, prevMember, rawHeader, prevHeader, names⟩ :=
      cycle.exists_prev (fun _ => rfl) saved cycle.positive
    rcases List.mem_pair.mp rawMember with rfl | rfl
    · exact notRoot 0 cycle.positive rawHeader.symm
    rcases List.mem_pair.mp prevMember with rfl | rfl
    · rcases Nat.eq_or_lt_of_le cycle.positive with one | more
      · have last := cycle.closed
        rw [← one] at last
        exact notRoot 0 cycle.positive (last.symm.trans prevHeader.symm)
      · exact notRoot 1 more prevHeader.symm
    · exact nextBlock_hash_ne names
  · exact enchainWalkLoads_nextBlock top bottom

/-- A first block of many such transactions. -/
def emptyTxsBlock (txCount : UInt32) : RawBlock where
  header := { rootBlock.header with txCount }
  txs := List.replicate txCount.toNat emptyTx
  trailing := []
  count := List.length_replicate.symm
  counted tx member := by
    rw [List.eq_of_mem_replicate member]
    exact ⟨rfl, rfl⟩

theorem offset_emptyTxsBlock (txCount : UInt32) (i : Nat) :
    (emptyTxsBlock txCount).offset i = 84 + 10 * min i txCount.toNat := by
  have size : emptyTx.bytes.length = 10 := by decide
  simp [RawBlock.offset, emptyTxsBlock, List.take_replicate, List.length_flatMap, size,
    sizeBlockHeader, Nat.mul_comm]

set_option maxRecDepth 100000 in
theorem emptyTxsBlock_prevHash_ne :
    (emptyTxsBlock 107374175).header.prevHash ≠ (emptyTxsBlock 107374175).hash sha256 := by
  decide +kernel

/-- A block of 107374175 empty transactions is saved, and its header is read through a buffer that
is too small for the file. -/
theorem not_walksBounded_emptyTxsBlock :
    ∃ disk, saveAll sha256 0 [(emptyTxsBlock 107374175).bytes] Disk.empty = .ok disk ∧
      ¬ WalksBounded sha256 disk := by
  have length_eq : (emptyTxsBlock 107374175).txs.length = 107374175 := List.length_replicate
  obtain ⟨disk, saved⟩ :=
    @exists_ioSaveBlockRaw sha256 0 Disk.empty (emptyTxsBlock 107374175) rfl (by
      rw [length_eq, offset_emptyTxsBlock]
      decide)
  have savedAll : saveAll sha256 0 ([emptyTxsBlock 107374175].map RawBlock.bytes) Disk.empty =
      .ok disk := by
    rw [List.map_singleton, saveAll, saved]
    rfl
  refine ⟨disk, savedAll, fun bounded => ?_⟩
  rcases (walksBounded_iff sha256 0 _ Disk.empty disk (fun _ => rfl) savedAll).mp bounded with
    fit | ⟨length, header, cycle⟩
  · have fits := (lastSavesFit_iff (addressable_of_saveAll savedAll)).mp fit _ _
      ((latest_eq_some_iff (RawBlock.hash sha256)).mpr ⟨[], [], rfl, rfl, by simp⟩)
    rw [length_eq, offset_emptyTxsBlock] at fits
    exact absurd fits (by decide)
  · obtain ⟨raw, rawMember, prev, prevMember, _, _, names⟩ :=
      cycle.exists_prev (fun _ => rfl) savedAll cycle.positive
    rw [List.mem_singleton.mp rawMember, List.mem_singleton.mp prevMember] at names
    exact emptyTxsBlock_prevHash_ne names

end Freecoin
