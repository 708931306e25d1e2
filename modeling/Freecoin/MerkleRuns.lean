import Freecoin.Merkle

/-!
# Runs of the Merkle reduction

What the reduction loop of `compute_merkle_root` hashes, level by level and position by position.
Two runs over equally many leaves that end in the same root either started from the same leaves or
hashed two different strings to one digest at the same place.
-/

namespace Freecoin

open Foundation

variable {sha256 : List UInt8 → Digest}

/-- The reduction of the first `leafCount` digests behind a tree hashes a string at position `k` of
the level `depth` steps up. -/
inductive Hashes (sha256 : List UInt8 → Digest) :
    (leafCount : Nat) → MerkleCells → (depth k : Nat) → List UInt8 → Prop where
  | pair {leafCount k left right : Nat} {state now : MerkleCells} : 1 < leafCount →
      k < leafCount / 2 → merklePairs sha256 0 k 0 state = .ok now →
      now.treeHashes[2 * k]? = some left → now.treeHashes[2 * k + 1]? = some right →
        Hashes sha256 leafCount state 0 k ((now.cells left).toList ++ (now.cells right).toList)
  | remainder {leafCount last : Nat} {state now : MerkleCells} : 1 < leafCount →
      leafCount % 2 ≠ 0 → merklePairs sha256 0 (leafCount / 2) 0 state = .ok now →
      now.treeHashes[leafCount - 1]? = some last →
        Hashes sha256 leafCount state 0 (leafCount / 2)
          ((now.cells last).toList ++ (now.cells last).toList)
  | above {leafCount next depth k : Nat} {state after : MerkleCells} {string : List UInt8} :
      1 < leafCount → merkleLevel sha256 leafCount state = .ok (next, after) →
      Hashes sha256 next after depth k string → Hashes sha256 leafCount state (depth + 1) k string

/-- The string a pair of digests is hashed as. -/
def pairString (pair : Digest × Digest) : List UInt8 := pair.1.toList ++ pair.2.toList

theorem length_pairString (pair : Digest × Digest) : (pairString pair).length = 64 := by
  simp [pairString]

theorem pairString_injective : Function.Injective pairString := by
  intro pair other same
  obtain ⟨lefts, rights⟩ := List.append_inj same (by simp)
  exact Prod.ext (List.Vector.eq _ _ lefts) (List.Vector.eq _ _ rights)

theorem exists_pointer_of_value {state : MerkleCells} {index : Nat} {value : Digest}
    (found : state.values[index]? = some value) :
    ∃ pointer, state.treeHashes[index]? = some pointer ∧ state.cells pointer = value := by
  rw [MerkleCells.values, List.getElem?_map] at found
  exact Option.map_eq_some_iff.mp found

/-- At position `k` of a level the loop hashes the pair the reduction combines there. -/
theorem hashes_of_pairAt {state : MerkleCells} {leafCount k : Nat} {pair : Digest × Digest}
    (distinct : state.Distinct) (long : 2 ≤ leafCount) (inside : leafCount ≤ state.values.length)
    (small : leafCount < 2 ^ 31)
    (combined : PairTree.pairAt (state.values.take leafCount) k = some pair) :
    Hashes sha256 leafCount state 0 k (pairString pair) := by
  obtain ⟨first, first_eq, rfl⟩ := Option.map_eq_some_iff.mp combined
  have bound : 2 * k < leafCount := by
    have within := (List.getElem?_eq_some_iff.mp first_eq).1
    rw [List.length_take] at within
    omega
  rw [List.getElem?_take_of_lt bound] at first_eq
  -- The pairs combined before position `k` did not touch the digests from `2 * k` on.
  obtain ⟨now, ran, _, _, values⟩ :=
    merklePairs_spec sha256 k (k := 0) distinct (by omega) (by omega)
  have untouched : ∀ index, k ≤ index → now.values[index]? = state.values[index]? := by
    intro index behind
    rw [values index, if_neg (by omega)]
  obtain ⟨left, left_eq, rfl⟩ :=
    exists_pointer_of_value ((untouched (2 * k) (by omega)).trans first_eq)
  by_cases paired : 2 * k + 1 < leafCount
  · have second : (state.values.take leafCount)[2 * k + 1]? =
        some state.values[2 * k + 1] := by
      rw [List.getElem?_take_of_lt paired, List.getElem?_eq_getElem (by omega)]
    obtain ⟨right, right_eq, right_value⟩ := exists_pointer_of_value
      ((untouched (2 * k + 1) (by omega)).trans (List.getElem?_eq_getElem (by omega)))
    have hashed := Hashes.pair (k := k) long (by omega) ran left_eq right_eq
    rw [pairString, second, Option.getD_some, ← right_value]
    exact hashed
  · obtain rfl : k = leafCount / 2 := by omega
    have alone : (state.values.take leafCount)[2 * (leafCount / 2) + 1]? = none :=
      List.getElem?_take_eq_none (by omega)
    have last : 2 * (leafCount / 2) = leafCount - 1 := by omega
    rw [last] at left_eq
    have hashed := Hashes.remainder long (by omega) ran left_eq
    rw [pairString, alone, Option.getD_none]
    exact hashed

/-- Two runs hash different strings to one digest at the same level and position. -/
def RunsCollide (sha256 : List UInt8 → Digest) (leafCount : Nat)
    (left right : MerkleCells) : Prop :=
  ∃ (depth k : Nat) (string other : List UInt8), Hashes sha256 leafCount left depth k string ∧
    Hashes sha256 leafCount right depth k other ∧ string.length = 64 ∧ other.length = 64 ∧
    string ≠ other ∧ sha256 string = sha256 other

/-- A clash of the reductions is a collision in the runs. -/
theorem runsCollide_of_clash {xs ys : List Digest}
    (clash : PairTree.Clash (merkleNode sha256) xs ys)
    {leafCount : Nat} {left right : MerkleCells} (leftDistinct : left.Distinct)
    (rightDistinct : right.Distinct) (leftInside : leafCount ≤ left.values.length)
    (rightInside : leafCount ≤ right.values.length) (small : leafCount < 2 ^ 31)
    (xs_eq : xs = left.values.take leafCount)
    (ys_eq : ys = right.values.take leafCount) : RunsCollide sha256 leafCount left right := by
  induction clash generalizing leafCount left right with
  | @here xs ys k pair other long leftPair rightPair differ digests =>
      subst xs_eq ys_eq
      rw [List.length_take, Nat.min_eq_left leftInside] at long
      exact ⟨0, k, pairString pair, pairString other,
        hashes_of_pairAt leftDistinct long leftInside small leftPair,
        hashes_of_pairAt rightDistinct long rightInside small rightPair, length_pairString pair,
        length_pairString other, fun same => differ (pairString_injective same), digests⟩
  | @above xs ys long _ ih =>
      subst xs_eq ys_eq
      rw [List.length_take, Nat.min_eq_left leftInside] at long
      obtain ⟨leftNext, leftLevel, leftNextDistinct, leftLength, leftValues⟩ :=
        merkleLevel_spec sha256 leftDistinct long leftInside small
      obtain ⟨rightNext, rightLevel, rightNextDistinct, rightLength, rightValues⟩ :=
        merkleLevel_spec sha256 rightDistinct long rightInside small
      obtain ⟨depth, k, string, other, first, second, collision⟩ :=
        ih leftNextDistinct rightNextDistinct (by omega) (by omega) (by omega) leftValues.symm
          rightValues.symm
      exact ⟨depth + 1, k, string, other, .above long leftLevel first,
        .above long rightLevel second, collision⟩

/-- With the number of leaves fixed, the root commits to the leaves in their order. -/
theorem merkleReduce_commits (sha256 : List UInt8 → Digest) (leaves others : List Digest)
    (root : Digest) (nonempty : 1 ≤ leaves.length) (length_eq : leaves.length = others.length)
    (reduced : merkleReduce sha256 leaves = .ok root)
    (otherReduced : merkleReduce sha256 others = .ok root) :
    leaves = others ∨
      RunsCollide sha256 leaves.length (.ofLeaves leaves) (.ofLeaves others) := by
  have leaves_ne : leaves ≠ [] := List.ne_nil_of_length_pos nonempty
  have others_ne : others ≠ [] := List.ne_nil_of_length_pos (length_eq ▸ nonempty)
  have small := ((exists_merkleReduce_iff sha256 leaves).mp ⟨root, reduced⟩).2
  obtain ⟨first, firstRan, firstRoot⟩ := merkleReduce_eq sha256 leaves_ne small
  obtain ⟨second, secondRan, secondRoot⟩ := merkleReduce_eq sha256 others_ne (length_eq ▸ small)
  obtain rfl := Except.ok.inj (firstRan.symm.trans reduced)
  obtain rfl := Except.ok.inj (secondRan.symm.trans otherReduced)
  obtain same | clash :=
    PairTree.eq_or_clash_of_root_eq length_eq (firstRoot.trans secondRoot.symm)
  · exact Or.inl same
  · refine Or.inr (runsCollide_of_clash clash (MerkleCells.distinct_ofLeaves leaves)
      (MerkleCells.distinct_ofLeaves others) ?_ ?_ small ?_ ?_)
    · rw [MerkleCells.values_ofLeaves]
    · rw [MerkleCells.values_ofLeaves, length_eq]
    · rw [MerkleCells.values_ofLeaves, List.take_length]
    · rw [MerkleCells.values_ofLeaves, length_eq, List.take_length]

/-- A digest that maps everything to zero confuses the two orders of two leaves. -/
theorem merkleReduce_commits_swapped :
    let zeros : Digest := List.Vector.replicate 32 0
    let ones : Digest := List.Vector.replicate 32 1
    [zeros, ones] = [ones, zeros] ∨
      RunsCollide (fun _ => zeros) 2 (.ofLeaves [zeros, ones]) (.ofLeaves [ones, zeros]) :=
  merkleReduce_commits (fun _ => List.Vector.replicate 32 0) _ _ (List.Vector.replicate 32 0)
    (by decide) rfl rfl rfl

end Freecoin
