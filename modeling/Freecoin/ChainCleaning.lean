import Freecoin.HeadWalks
import Mathlib.Data.List.NodupEquivFin

/-!
# Cleaning the heads

`chain_clean` walks backward from every head of a copy of the head set and deletes each other head
that it comes across.  Heads deleted early are still walked from, which does no harm: a head is dead
exactly if the walk of another head visits its block, and whatever a dead head reaches is reached
from a head that no other one visits.  Only heads with one and the same hash delete each other.
-/

namespace Freecoin

open Foundation

namespace Disk

/-- The block files hold headers and fit the buffer for a block, and their previous hashes run in no
cycle. -/
structure Forest (disk : Disk) : Prop where
  readable : disk.Readable
  acyclic : ∀ hash, ¬ Relation.TransGen disk.NamesPrev hash hash

/-- No two heads have the same hash. -/
def DistinctHeads (disk : Disk) : Prop := (disk.heads.map Head.hash).Nodup

/-- The number of heads with a hash. -/
def headCount (disk : Disk) (hash : Digest) : Nat := (disk.heads.map Head.hash).count hash

/-- Several heads have the hash of a stored block. -/
def Shared (disk : Disk) (hash : Digest) : Prop := disk.Stored hash ∧ 2 ≤ disk.headCount hash

/-- The backward walk from some head visits a block. -/
def Reached (disk : Disk) (hash : Digest) : Prop :=
  ∃ head ∈ disk.heads, Walk.Visits disk.link head.hash hash

/-- The backward walk from another head visits the head's block. -/
def Dead (disk : Disk) (head : Head) : Prop :=
  ∃ other ∈ disk.heads, other.hash ≠ head.hash ∧ Walk.Visits disk.link other.hash head.hash

/-- Several heads have the hash of a stored block, and no head of another hash visits it. -/
def SharedTip (disk : Disk) (hash : Digest) : Prop :=
  disk.Shared hash ∧ ∀ other ∈ disk.heads, Walk.Visits disk.link other.hash hash →
    other.hash = hash

/-- Only heads that the head visits itself visit it. -/
def MaximalHead (disk : Disk) (head : Head) : Prop :=
  ∀ other ∈ disk.heads, Walk.Visits disk.link other.hash head.hash →
    Walk.Visits disk.link head.hash other.hash

theorem Forest.acyclic_link {disk : Disk} (forest : disk.Forest) (hash : Digest) :
    ¬ Relation.TransGen (Walk.Step disk.link) hash hash := by
  intro cycle
  refine forest.acyclic hash (cycle.lift id fun child parent step => ?_)
  obtain ⟨header, loaded, _, prev⟩ := exists_loaded_of_step step
  exact ⟨header, loaded, prev⟩

/-- The heads say nothing about the files. -/
theorem Forest.of_sameFiles {disk after : Disk} (forest : disk.Forest)
    (same : disk.SameFiles after) : after.Forest := by
  have names : after.NamesPrev = disk.NamesPrev := by
    funext child parent
    rw [NamesPrev, NamesPrev, same.ioLoadBlockHeader_eq]
  refine ⟨fun hash => ?_, fun hash => ?_⟩
  · rw [same.ioLoadBlockHeader_eq]
    exact forest.readable hash
  · rw [names]
    exact forest.acyclic hash

theorem two_le_headCount_iff {disk : Disk} {hash : Digest} :
    2 ≤ disk.headCount hash ↔ ∃ (i j : Nat) (left right : Head), i ≠ j ∧
      disk.heads[i]? = some left ∧ disk.heads[j]? = some right ∧
      left.hash = hash ∧ right.hash = hash := by
  rw [headCount, ← List.duplicate_iff_two_le_count, List.duplicate_iff_exists_distinct_get]
  constructor
  · rintro ⟨i, j, before, atLeft, atRight⟩
    have inLeft : i.1 < disk.heads.length := by simpa using i.2
    have inRight : j.1 < disk.heads.length := by simpa using j.2
    refine ⟨i, j, _, _, Fin.val_ne_of_ne before.ne, List.getElem?_eq_getElem inLeft,
      List.getElem?_eq_getElem inRight, ?_, ?_⟩
    · simpa using atLeft.symm
    · simpa using atRight.symm
  · intro ⟨i, j, left, right, different, leftAt, rightAt, leftHash, rightHash⟩
    obtain ⟨inLeft, rfl⟩ := List.getElem?_eq_some_iff.mp leftAt
    obtain ⟨inRight, rfl⟩ := List.getElem?_eq_some_iff.mp rightAt
    have first : i < (disk.heads.map Head.hash).length := by rwa [List.length_map]
    have second : j < (disk.heads.map Head.hash).length := by rwa [List.length_map]
    rcases Nat.lt_or_gt_of_ne different with before | behind
    · exact ⟨⟨i, first⟩, ⟨j, second⟩, before, by simpa using leftHash.symm,
        by simpa using rightHash.symm⟩
    · exact ⟨⟨j, second⟩, ⟨i, first⟩, behind, by simpa using rightHash.symm,
        by simpa using leftHash.symm⟩

theorem DistinctHeads.not_shared {disk : Disk} (distinct : disk.DistinctHeads) (hash : Digest) :
    ¬ disk.Shared hash := by
  intro shared
  exact absurd (List.nodup_iff_count_le_one.mp distinct hash) (Nat.not_le_of_lt shared.2)

theorem Readable.present_iff {disk : Disk} (readable : disk.Readable) {hash : Digest} :
    (disk.link hash).isSome ↔ disk.Stored hash := by
  constructor
  · intro present
    obtain ⟨header, loaded⟩ := exists_loaded_of_present present
    exact stored_of_loaded loaded
  · intro stored
    obtain ⟨header, loaded⟩ := exists_loaded_of_stored readable stored
    exact present_of_loaded loaded

end Disk

/-! ## What is deleted -/

theorem drops_of_chainCleanWalks {heads : List Head} {fuel : Nat} {walks : List (Head × Nat)}
    {disk after : Disk} (cleaned : chainCleanWalks heads fuel walks disk = .ok after) :
    disk.Drops after fun head => ∃ walk ∈ walks,
      Walk.Visits disk.link walk.1.hash head.hash ∧ MeetsOther heads walk.2 head.hash := by
  induction walks generalizing disk with
  | nil =>
      obtain rfl := Except.ok.inj cleaned
      exact .none disk fun head _ => by simp
  | cons walk walks ih =>
      rw [chainCleanWalks, Run.bind_eq_ok] at cleaned
      obtain ⟨next, walked, rest⟩ := cleaned
      have first := drops_of_chainCleanWalk walked
      have others := ih rest
      rw [first.files.link_eq] at others
      exact (first.trans others).congr fun head _ => by rw [List.exists_mem_cons_iff]

theorem exists_chainCleanWalks {heads : List Head} {fuel : Nat} (walks : List (Head × Nat))
    {disk : Disk} (readable : disk.Readable)
    (ends : ∀ hash, ∃ visited, Walk.trail disk.link fuel hash = some visited) :
    ∃ after, chainCleanWalks heads fuel walks disk = .ok after := by
  induction walks generalizing disk with
  | nil => exact ⟨disk, rfl⟩
  | cons walk walks ih =>
      obtain ⟨head, i⟩ := walk
      obtain ⟨visited, walkEnds⟩ := ends head.hash
      obtain ⟨next, walked⟩ : ∃ next, chainCleanWalk heads i fuel head.hash disk = .ok next :=
        exists_chainCleanWalk readable walkEnds
      have same := sameFiles_chainCleanWalk walked
      rw [← same.link_eq] at ends
      rw [chainCleanWalks, walked, Run.ok_bind]
      refine ih (fun hash => ?_) ends
      rw [same.ioLoadBlockHeader_eq]
      exact readable hash

/-- A walk meets another head than its own with the hash of a head, if that head is dead or shares
its hash. -/
theorem exists_walk_iff_dead {disk : Disk} (readable : disk.Readable) {head : Head}
    (member : head ∈ disk.heads) :
    (∃ walk ∈ disk.heads.zipIdx, Walk.Visits disk.link walk.1.hash head.hash ∧
      MeetsOther disk.heads walk.2 head.hash) ↔ disk.Dead head ∨ disk.Shared head.hash := by
  constructor
  · rintro ⟨⟨other, i⟩, otherAt, visits, ⟨met, k⟩, metAt, elsewhere, same⟩
    rw [List.mk_mem_zipIdx_iff_getElem?] at otherAt metAt
    by_cases own : other.hash = head.hash
    · refine Or.inr ⟨readable.present_iff.mp visits.2, Disk.two_le_headCount_iff.mpr ?_⟩
      exact ⟨k, i, met, other, elsewhere, metAt, otherAt, same.symm, own⟩
    · exact Or.inl ⟨other, List.mem_of_getElem? otherAt, own, visits⟩
  · rintro (⟨other, otherMember, different, visits⟩ | ⟨stored, several⟩)
    · obtain ⟨i, otherAt⟩ := List.getElem?_of_mem otherMember
      obtain ⟨k, headAt⟩ := List.getElem?_of_mem member
      refine ⟨(other, i), List.mk_mem_zipIdx_iff_getElem?.mpr otherAt, visits, (head, k),
        List.mk_mem_zipIdx_iff_getElem?.mpr headAt, ?_, rfl⟩
      rintro rfl
      rw [headAt, Option.some.injEq] at otherAt
      exact different (congrArg Head.hash otherAt).symm
    · obtain ⟨i, j, left, right, different, leftAt, rightAt, leftHash, rightHash⟩ :=
        Disk.two_le_headCount_iff.mp several
      refine ⟨(left, i), List.mk_mem_zipIdx_iff_getElem?.mpr leftAt, ?_, (right, j),
        List.mk_mem_zipIdx_iff_getElem?.mpr rightAt, different.symm, rightHash.symm⟩
      change Walk.Visits disk.link left.hash head.hash
      rw [leftHash]
      exact .self (readable.present_iff.mpr stored)

/-- `chain_clean` deletes the dead heads and those that share the hash of a stored block. -/
theorem drops_of_chainClean {disk after : Disk} (readable : disk.Readable) {fuel : Nat}
    (cleaned : chainClean fuel disk = .ok after) :
    disk.Drops after fun head => disk.Dead head ∨ disk.Shared head.hash :=
  (drops_of_chainCleanWalks cleaned).congr fun _ member => exists_walk_iff_dead readable member

/-- Among different heads it deletes exactly the dead ones. -/
theorem drops_dead_of_chainClean {disk after : Disk} (readable : disk.Readable)
    (distinct : disk.DistinctHeads) {fuel : Nat} (cleaned : chainClean fuel disk = .ok after) :
    disk.Drops after disk.Dead :=
  (drops_of_chainClean readable cleaned).congr fun head _ =>
    or_iff_left (distinct.not_shared head.hash)

/-! ## What is kept -/

section Kept

variable {disk after : Disk}

/-- A maximal head is not dead. -/
theorem not_dead_of_maximal (forest : disk.Forest) {head : Head} (maximal : disk.MaximalHead head) :
    ¬ disk.Dead head := by
  rintro ⟨other, member, different, visits⟩
  exact different (visits.antisymm forest.acyclic_link (maximal other member visits))

theorem reached_of_drops {dropped : Head → Prop} (drops : disk.Drops after dropped) {hash : Digest}
    (reached : after.Reached hash) : disk.Reached hash := by
  obtain ⟨head, member, visits⟩ := reached
  rw [drops.files.link_eq] at visits
  exact ⟨head, (drops.mem_iff.mp member).1, visits⟩

/-- Dropping the dead and the shared heads loses no block, unless heads share a tip. -/
theorem reached_clean_of_reached (forest : disk.Forest)
    (drops : disk.Drops after fun head => disk.Dead head ∨ disk.Shared head.hash)
    (untied : ∀ hash, ¬ disk.SharedTip hash) {hash : Digest} (reached : disk.Reached hash) :
    after.Reached hash := by
  obtain ⟨head, member, visits⟩ := reached
  have top : ∃ top ∈ { hash | ∃ head ∈ disk.heads, head.hash = hash },
      Walk.Visits disk.link top hash := ⟨head.hash, ⟨head, member, rfl⟩, visits⟩
  obtain ⟨_, ⟨kept, keptMember, rfl⟩, alone, visitsKept⟩ :=
    Walk.exists_visits_maximal forest.acyclic_link top
  have only : ∀ other ∈ disk.heads, Walk.Visits disk.link other.hash kept.hash →
      other.hash = kept.hash := fun other otherMember => alone other.hash ⟨other, otherMember, rfl⟩
  rw [Disk.Reached, drops.files.link_eq]
  refine ⟨kept, drops.mem_iff.mpr ⟨keptMember, ?_⟩, visitsKept⟩
  rintro (⟨other, otherMember, different, otherVisits⟩ | shared)
  · exact different (only other otherMember otherVisits)
  · exact untied kept.hash ⟨shared, only⟩

/-- The heads that share a tip are all deleted, and the block is lost. -/
theorem not_reached_of_sharedTip
    (drops : disk.Drops after fun head => disk.Dead head ∨ disk.Shared head.hash) {hash : Digest}
    (tip : disk.SharedTip hash) : ¬ after.Reached hash := by
  rintro ⟨head, member, visits⟩
  rw [drops.files.link_eq] at visits
  obtain ⟨old, kept⟩ := drops.mem_iff.mp member
  rw [tip.2 head old visits] at kept
  exact kept (Or.inr tip.1)

theorem distinctHeads_of_drops {dropped : Head → Prop} (distinct : disk.DistinctHeads)
    (drops : disk.Drops after dropped) : after.DistinctHeads :=
  List.Nodup.sublist (drops.sublist.map Head.hash) distinct

/-- No head that is left is dead. -/
theorem not_dead_of_drops (drops : disk.Drops after disk.Dead) {head : Head}
    (member : head ∈ after.heads) : ¬ after.Dead head := by
  rintro ⟨other, otherMember, different, visits⟩
  rw [drops.files.link_eq] at visits
  exact (drops.mem_iff.mp member).2
    ⟨other, (drops.mem_iff.mp otherMember).1, different, visits⟩

/-- Every large enough budget is enough for `chain_clean`. -/
theorem exists_chainClean (forest : disk.Forest) :
    ∃ budget, ∀ fuel, budget ≤ fuel → ∀ heads, ∃ after,
      chainClean fuel { disk with heads := heads } = .ok after := by
  obtain ⟨budget, ends⟩ := Walk.exists_trail forest.acyclic_link
  refine ⟨budget, fun fuel enough heads => ?_⟩
  refine exists_chainCleanWalks _ forest.readable fun hash => ?_
  obtain ⟨visited, walked⟩ := ends hash
  exact ⟨visited, Walk.trail_of_le walked enough⟩

end Kept

/-- A data directory with the given headers and heads. -/
def Disk.ofHeaders (entries : List (Digest × BlockHeader)) (heads : List Head) : Disk where
  blocks name :=
    (entries.find? fun entry => blockFileName entry.1 = name).map fun entry => entry.2.bytes
  txindex _ := none
  heads := heads

theorem ioLoadBlockHeader_ofHeaders (entries : List (Digest × BlockHeader)) (heads : List Head)
    (hash : Digest) :
    ioLoadBlockHeader (.ofHeaders entries heads) hash =
      .ok ((entries.find? fun entry => entry.1 = hash).map Prod.snd) := by
  have content : blockFile (.ofHeaders entries heads) hash =
      (entries.find? fun entry => entry.1 = hash).map fun entry => entry.2.bytes := by
    simp only [blockFile, Disk.ofHeaders, blockFileName_injective.eq_iff]
  cases found : entries.find? fun entry => entry.1 = hash with
  | none =>
      rw [found] at content
      exact ioLoadBlockHeader_of_none content
  | some entry =>
      rw [found] at content
      have fits : entry.2.bytes.length ≤ maxBlockSize := by
        rw [entry.2.length_bytes]
        decide
      have header := blockHeaderDeserialize_bytes entry.2 []
      rw [List.append_nil] at header
      rw [ioLoadBlockHeader_of_some content fits, header]
      rfl

/-- Previous hashes that are lower in some ranking run in no cycle. -/
theorem forest_ofHeaders {entries : List (Digest × BlockHeader)} (rank : Digest → Nat)
    (lower : ∀ entry ∈ entries, rank entry.2.prevHash < rank entry.1) (heads : List Head) :
    (Disk.ofHeaders entries heads).Forest := by
  refine ⟨fun hash => ⟨_, ioLoadBlockHeader_ofHeaders entries heads hash⟩, fun hash cycle => ?_⟩
  have decreases : ∀ {child parent : Digest},
      Relation.TransGen (Disk.ofHeaders entries heads).NamesPrev child parent →
        rank parent < rank child := by
    intro child parent path
    have step : ∀ {child parent : Digest}, (Disk.ofHeaders entries heads).NamesPrev child parent →
        rank parent < rank child := by
      rintro child parent ⟨header, loaded, rfl⟩
      rw [ioLoadBlockHeader_ofHeaders, Except.ok.injEq, Option.map_eq_some_iff] at loaded
      obtain ⟨entry, found, rfl⟩ := loaded
      have named := List.find?_some found
      simp only [decide_eq_true_eq] at named
      rw [← named]
      exact lower entry (List.mem_of_find?_eq_some found)
    induction path with
    | single first => exact step first
    | tail _ last ih => exact (step last).trans ih
  exact lt_irrefl _ (decreases cycle)

/-- The digest that repeats one byte. -/
def plainDigest (byte : UInt8) : Digest := List.Vector.replicate 32 byte

/-- The first byte of a digest. -/
def firstByte (hash : Digest) : Nat := (hash.toList.getD 0 0).toNat

/-- The header of a block built on another. -/
def linkHeader (prevHash : Digest) (height : UInt32) : BlockHeader where
  version := 2
  time := 0
  height := height
  prevHash := prevHash
  merkleRoot := plainDigest 0
  target := { mantissa := 0, exponent := 1 }
  nonce := 0
  txCount := 0

/-- A first block and one built on it, with a head each. -/
def twoHeads : Disk :=
  .ofHeaders
    [(plainDigest 2, linkHeader (plainDigest 1) 1), (plainDigest 1, linkHeader (plainDigest 0) 0)]
    [{ height := 0, chained := 0, hash := plainDigest 1 },
      { height := 1, chained := 0, hash := plainDigest 2 }]

theorem twoHeads_forest : twoHeads.Forest := forest_ofHeaders firstByte (by decide) _

end Freecoin
