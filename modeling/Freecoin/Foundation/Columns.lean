import Mathlib.Algebra.BigOperators.Intervals
import Mathlib.Algebra.BigOperators.Ring.Finset
import Mathlib.Tactic.Ring

/-!
# Products by columns

The product of two positional numbers is the sum of its columns: column `i` collects the products of
digits whose positions add up to `i`.  Those digits lie in a window, which slides along one factor
upward and along the other one downward.
-/

namespace Foundation.Columns

open Finset

variable (f g : Nat → Nat) (m n : Nat)

/-- The products of the first `m` digits of one number and the first `n` of another whose positions
add up to `i`. -/
def column (i : Nat) : Nat := ∑ p ∈ range m, ∑ q ∈ range n, if p + q = i then f p * g q else 0

/-- The columns, each at its position, add up to the product. -/
theorem sum_column (base : Nat) :
    ∑ i ∈ range (m + n), column f g m n i * base ^ i =
      (∑ p ∈ range m, f p * base ^ p) * ∑ q ∈ range n, g q * base ^ q := by
  have collect : ∀ p ∈ range m, ∀ q ∈ range n,
      ∑ i ∈ range (m + n), (if p + q = i then f p * g q else 0) * base ^ i =
        f p * base ^ p * (g q * base ^ q) := by
    intro p pInside q qInside
    have inside : p + q ∈ range (m + n) := by
      rw [mem_range] at *
      omega
    simp only [ite_mul, zero_mul]
    rw [sum_ite_eq, if_pos inside, pow_add]
    ring
  calc ∑ i ∈ range (m + n), column f g m n i * base ^ i
      = ∑ i ∈ range (m + n), ∑ p ∈ range m, ∑ q ∈ range n,
          (if p + q = i then f p * g q else 0) * base ^ i := by
        simp only [column, sum_mul]
    _ = ∑ p ∈ range m, ∑ q ∈ range n, ∑ i ∈ range (m + n),
          (if p + q = i then f p * g q else 0) * base ^ i := by
        rw [sum_comm]
        exact sum_congr rfl fun p _ => sum_comm
    _ = ∑ p ∈ range m, ∑ q ∈ range n, f p * base ^ p * (g q * base ^ q) :=
        sum_congr rfl fun p pInside => sum_congr rfl fun q qInside => collect p pInside q qInside
    _ = (∑ p ∈ range m, f p * base ^ p) * ∑ q ∈ range n, g q * base ^ q := by
        rw [sum_mul_sum]

/-- A column is the sum over its window. -/
theorem column_eq_window {f g : Nat → Nat} {m n i : Nat} (positive : 1 ≤ n) :
    column f g m n i =
      ∑ j ∈ range (min (m - (i - min i (n - 1))) (min i (n - 1) + 1)),
        f (i - min i (n - 1) + j) * g (min i (n - 1) - j) := by
  have inner : ∀ p ∈ range m, (∑ q ∈ range n, if p + q = i then f p * g q else 0) =
      if i - min i (n - 1) ≤ p ∧ p < i + 1 then f p * g (i - p) else 0 := by
    intro p _
    by_cases window : i - min i (n - 1) ≤ p ∧ p < i + 1
    · rw [if_pos window]
      have inside : i - p ∈ range n := by
        rw [mem_range]
        omega
      rw [sum_eq_single_of_mem (i - p) inside, if_pos (by omega)]
      intro q _ different
      rw [if_neg (by omega)]
    · rw [if_neg window]
      refine sum_eq_zero fun q qInside => if_neg ?_
      rw [mem_range] at qInside
      omega
  calc column f g m n i
      = ∑ p ∈ range m, if i - min i (n - 1) ≤ p ∧ p < i + 1 then f p * g (i - p) else 0 :=
        sum_congr rfl inner
    _ = ∑ p ∈ Ico (i - min i (n - 1)) (min m (i + 1)), f p * g (i - p) := by
        rw [← sum_filter]
        refine sum_congr ?_ fun p _ => rfl
        ext p
        rw [mem_filter, mem_range, mem_Ico]
        omega
    _ = _ := by
        rw [sum_Ico_eq_sum_range]
        refine sum_congr (congrArg range (by omega)) fun j jInside => ?_
        rw [mem_range] at jInside
        congr 2
        omega

end Foundation.Columns
