import Mathlib.Data.List.Basic
import Mathlib.Tactic.Common

/-!
# Pairwise reduction trees

A nonempty list is reduced level by level: neighbours are combined, and the last element of a
level of odd length is combined with itself.  For lists of one length the root determines the
leaves, unless two different pairs at one place of the two reductions are combined to the same
element.
-/

namespace Foundation.PairTree

variable {α : Type*} (node : α → α → α)

/-- One level of the reduction. -/
def level : List α → List α
  | [] => []
  | [x] => [node x x]
  | x :: y :: rest => node x y :: level rest

/-- The two elements combined at position `k` of a level. -/
def pairAt (xs : List α) (k : Nat) : Option (α × α) :=
  xs[2 * k]?.map fun x => (x, xs[2 * k + 1]?.getD x)

@[simp] theorem length_level (xs : List α) : (level node xs).length = (xs.length + 1) / 2 := by
  induction xs using level.induct with
  | case1 => simp [level]
  | case2 x => simp [level]
  | case3 x y rest ih =>
      simp only [level, List.length_cons, ih]
      omega

theorem getElem?_level (xs : List α) (k : Nat) :
    (level node xs)[k]? = (pairAt xs k).map fun pair => node pair.1 pair.2 := by
  induction xs using level.induct generalizing k with
  | case1 => simp [level, pairAt]
  | case2 x => cases k <;> simp [level, pairAt]
  | case3 x y rest ih =>
      cases k with
      | zero => simp [level, pairAt]
      | succ k =>
          have shift : 2 * (k + 1) = 2 * k + 1 + 1 := by omega
          simp [level, pairAt, ih, shift]

/-- The root of the reduction of a nonempty list. -/
def root : List α → Option α
  | [] => none
  | [x] => some x
  | x :: y :: rest => root (level node (x :: y :: rest))
termination_by xs => xs.length
decreasing_by
  simp only [length_level, List.length_cons]
  omega

@[simp] theorem root_nil : root node [] = none := by rw [root]

@[simp] theorem root_singleton (x : α) : root node [x] = some x := by rw [root]

theorem root_level {xs : List α} (long : 2 ≤ xs.length) :
    root node xs = root node (level node xs) := by
  match xs, long with
  | x :: y :: rest, _ => rw [root]

/-- Two reductions combine different pairs to one element, at the same level and position.  Only
lists of two and more elements are combined at all. -/
inductive Clash : List α → List α → Prop where
  | here {xs ys : List α} {k : Nat} {left right : α × α} : 2 ≤ xs.length →
      pairAt xs k = some left → pairAt ys k = some right → left ≠ right →
        node left.1 left.2 = node right.1 right.2 → Clash xs ys
  | above {xs ys : List α} : 2 ≤ xs.length → Clash (level node xs) (level node ys) → Clash xs ys

variable {node}

/-- Lists of one length with the same pairs are equal. -/
theorem eq_of_pairAt_eq {xs ys : List α} (length_eq : xs.length = ys.length)
    (pairs : ∀ k, pairAt xs k = pairAt ys k) : xs = ys := by
  apply List.ext_getElem length_eq
  intro index insideLeft insideRight
  have pair := pairs (index / 2)
  obtain even | odd := Nat.mod_two_eq_zero_or_one index
  · have first : 2 * (index / 2) = index := by omega
    simp only [pairAt, first, List.getElem?_eq_getElem insideLeft,
      List.getElem?_eq_getElem insideRight, Option.map_some, Option.some.injEq,
      Prod.mk.injEq] at pair
    exact pair.1
  · have first : 2 * (index / 2) < xs.length := by omega
    have second : 2 * (index / 2) + 1 = index := by omega
    simp only [pairAt, second, List.getElem?_eq_getElem insideLeft,
      List.getElem?_eq_getElem insideRight, List.getElem?_eq_getElem first,
      List.getElem?_eq_getElem (length_eq ▸ first), Option.map_some, Option.getD_some,
      Option.some.injEq, Prod.mk.injEq] at pair
    exact pair.2

/-- A level determines the one below it, or two of its pairs clash. -/
theorem eq_or_clash_of_level_eq {xs ys : List α} (long : 2 ≤ xs.length)
    (length_eq : xs.length = ys.length) (levels : level node xs = level node ys) :
    xs = ys ∨ Clash node xs ys := by
  by_cases pairs : ∀ k, pairAt xs k = pairAt ys k
  · exact Or.inl (eq_of_pairAt_eq length_eq pairs)
  · push Not at pairs
    obtain ⟨k, differ⟩ := pairs
    have nodes := congrArg (·[k]?) levels
    simp only [getElem?_level] at nodes
    cases left : pairAt xs k with
    | none =>
        cases right : pairAt ys k with
        | none => exact absurd (left.trans right.symm) differ
        | some pair => simp [left, right] at nodes
    | some leftPair =>
        cases right : pairAt ys k with
        | none => simp [left, right] at nodes
        | some rightPair =>
            refine Or.inr (.here long left right ?_ ?_)
            · rintro rfl
              exact differ (left.trans right.symm)
            · simpa [left, right] using nodes

/-- The root commits to the leaves: equal roots of lists of one length come from equal lists, or
the two reductions clash. -/
theorem eq_or_clash_of_root_eq {xs ys : List α} (length_eq : xs.length = ys.length)
    (roots : root node xs = root node ys) : xs = ys ∨ Clash node xs ys := by
  induction size : xs.length using Nat.strongRecOn generalizing xs ys with
  | ind size ih =>
      subst size
      by_cases long : 2 ≤ xs.length
      · have above : root node (level node xs) = root node (level node ys) :=
          (root_level node long).symm.trans
            (roots.trans (root_level node (by rwa [← length_eq])))
        have shorter : (level node xs).length < xs.length := by
          rw [length_level]
          omega
        obtain levels | clash := ih _ shorter (by simp [length_eq]) above rfl
        · exact eq_or_clash_of_level_eq long length_eq levels
        · exact Or.inr (.above long clash)
      · match xs, ys, length_eq with
        | [], [], _ => exact Or.inl rfl
        | [x], [y], _ =>
            simp only [root_singleton, Option.some.injEq] at roots
            exact Or.inl (by rw [roots])
        | _ :: _ :: _, _, _ => simp at long

end Foundation.PairTree
