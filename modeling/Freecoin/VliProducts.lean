import Freecoin.Foundation.Columns
import Freecoin.Foundation.Returns
import Freecoin.Vli
import Mathlib.Algebra.Order.BigOperators.Group.Finset

/-!
# Products of very long integers

`ecdsa_vli_mult` computes the product by columns, with the sum of a column in three words.  For as
many words as a word can count, the three words hold every column with the carry into it.
-/

namespace Freecoin

open Foundation
open Finset (range)

variable {w : Nat}

/-- The words `r0`, `r1` and `r2` of `ecdsa_vli_mult`. -/
structure MulAcc (w : Nat) where
  r0 : BitVec w
  r1 : BitVec w
  r2 : BitVec w

namespace MulAcc

/-- The number in the three words. -/
def value (acc : MulAcc w) : Nat := Limbs.value [acc.r0, acc.r1, acc.r2]

theorem value_eq (acc : MulAcc w) :
    acc.value = acc.r0.toNat + 2 ^ w * acc.r1.toNat + 2 ^ (2 * w) * acc.r2.toNat := by
  simp only [value, Limbs.value_cons, Limbs.value_nil, two_mul, pow_add]
  ring

/-- `r0 = r1; r1 = r2; r2 = 0`. -/
def shift (acc : MulAcc w) : MulAcc w := ⟨acc.r1, acc.r2, 0#w⟩

/-- The digit taken out and the carry that stays. -/
theorem value_shift (acc : MulAcc w) : acc.r0.toNat + 2 ^ w * acc.shift.value = acc.value := by
  simp [value, shift]

/-- Below the values of a word nothing is in the other two. -/
theorem value_eq_of_lt {acc : MulAcc w} (single : acc.value < 2 ^ w) :
    acc.value = acc.r0.toNat := by
  have split := value_shift acc
  have none : acc.shift.value = 0 := by
    by_contra nonzero
    have carried := Nat.le_mul_of_pos_right (2 ^ w) (Nat.pos_of_ne_zero nonzero)
    omega
  rw [none, mul_zero, add_zero] at split
  exact split.symm

theorem value_shift_lt (acc : MulAcc w) : acc.shift.value < 2 ^ (2 * w) := by
  have bound := Limbs.value_lt [acc.r1, acc.r2]
  rw [List.length_cons, List.length_cons, List.length_nil, Nat.mul_comm] at bound
  simpa [value, shift] using bound

end MulAcc

/-- `muladd`, with the double word `ecdsa_dword_t`. -/
def muladd (a b : BitVec w) (acc : MulAcc w) : MulAcc w :=
  let p := a.setWidth (2 * w) * b.setWidth (2 * w)
  let r01 := acc.r1.setWidth (2 * w) <<< w ||| acc.r0.setWidth (2 * w)
  let r01 := r01 + p
  { r0 := r01.setWidth w, r1 := (r01 >>> w).setWidth w, r2 := acc.r2 + wordOfBool (r01 < p) }

/-- The inner loop of `ecdsa_vli_mult`: the products of the words `i` up that meet in column `k`. -/
def multColumn (left right : Vli w) (k : Nat) : (i count : Nat) → MulAcc w → MulAcc w
  | _, 0, acc => acc
  | i, count + 1, acc =>
      multColumn left right k (i + 1) count (muladd (left.getD i 0#w) (right.getD (k - i) 0#w) acc)

/-- An outer loop of `ecdsa_vli_mult` over `count` columns; `start` is where the inner loop begins,
and `limit` where it ends.  The digits come with what is left for the next column. -/
def multColumns (left right : Vli w) (start limit : Nat → Nat) :
    (k count : Nat) → MulAcc w → Vli w × MulAcc w
  | _, 0, acc => ([], acc)
  | k, count + 1, acc =>
      let acc := multColumn left right k (start k) (limit k - start k) acc
      let rest := multColumns left right start limit (k + 1) count acc.shift
      (acc.r0 :: rest.1, rest.2)

/-- The words that the two loops of `ecdsa_vli_mult` write. -/
def vliProduct (left right : Vli w) : Vli w :=
  let numWords := left.length
  let low := multColumns left right (fun _ => 0) (fun k => k + 1) 0 numWords ⟨0#w, 0#w, 0#w⟩
  let high := multColumns left right (fun k => k + 1 - numWords) (fun _ => numWords) numWords
    (numWords - 1) low.2
  low.1 ++ high.1 ++ [high.2.r0]

/-- `ecdsa_vli_mult`.  `k` is an `int8_t`: from 65 words on it would have to count to 128, and goes
on with a negative index instead. -/
def vliMult (left right : Vli w) : Run (Vli w) :=
  if left.length ≤ 64 then .ok (vliProduct left right) else .error .outOfBounds

theorem vliMult_eq {left right : Vli w} (few : left.length ≤ 64) :
    vliMult left right = .ok (vliProduct left right) := if_pos few

theorem toNat_setWidth_double (word : BitVec w) : (word.setWidth (2 * w)).toNat = word.toNat :=
  BitVec.toNat_setWidth_of_le (by omega)

/-- The double word of two words. -/
theorem toNat_joined (high low : BitVec w) :
    (high.setWidth (2 * w) <<< w ||| low.setWidth (2 * w)).toNat =
      low.toNat + 2 ^ w * high.toNat := by
  have bound := high.isLt
  have fits : 2 ^ w * high.toNat < 2 ^ (2 * w) := by
    rw [two_mul, pow_add]
    exact Nat.mul_lt_mul_of_pos_left bound (Nat.two_pow_pos w)
  have shifted : (high.setWidth (2 * w) <<< w).toNat = 2 ^ w * high.toNat := by
    rw [BitVec.toNat_shiftLeft, toNat_setWidth_double, Nat.shiftLeft_eq, Nat.mul_comm,
      Nat.mod_eq_of_lt fits]
  rw [BitVec.toNat_or, shifted, toNat_setWidth_double, Nat.add_comm]
  exact (Nat.two_pow_add_eq_or_of_lt low.isLt _).symm

theorem toNat_product (a b : BitVec w) :
    (a.setWidth (2 * w) * b.setWidth (2 * w)).toNat = a.toNat * b.toNat := by
  have fits : a.toNat * b.toNat < 2 ^ (2 * w) := by
    rw [two_mul, pow_add]
    exact Nat.mul_lt_mul'' a.isLt b.isLt
  rw [BitVec.toNat_mul, toNat_setWidth_double, toNat_setWidth_double, Nat.mod_eq_of_lt fits]

/-- A sum wraps exactly when it comes out below a summand. -/
theorem wrapped_sum (sum p : BitVec w) :
    sum.toNat + p.toNat = (sum + p).toNat + 2 ^ w * (decide (sum + p < p)).toNat := by
  have sumBound := sum.isLt
  have productBound := p.isLt
  have total : (sum + p).toNat = (sum.toNat + p.toNat) % 2 ^ w := BitVec.toNat_add sum p
  by_cases fits : sum.toNat + p.toNat < 2 ^ w
  · rw [Nat.mod_eq_of_lt fits] at total
    have kept : ¬ sum + p < p := by
      rw [BitVec.lt_def]
      omega
    rw [decide_eq_false kept, total, Bool.toNat_false, mul_zero, add_zero]
  · rw [Nat.mod_eq_sub_mod (Nat.le_of_not_lt fits), Nat.mod_eq_of_lt (by omega)] at total
    have dropped : sum + p < p := by
      rw [BitVec.lt_def]
      omega
    rw [decide_eq_true dropped, total, Bool.toNat_true, mul_one]
    omega

/-- A product is added to the three words without loss as long as they have room for it. -/
theorem value_muladd (positive : 0 < w) (a b : BitVec w) {acc : MulAcc w}
    (room : acc.value + a.toNat * b.toNat < 2 ^ (3 * w)) :
    (muladd a b acc).value = acc.value + a.toNat * b.toNat := by
  obtain ⟨p, p_eq⟩ : ∃ p : BitVec (2 * w), a.setWidth (2 * w) * b.setWidth (2 * w) = p := ⟨_, rfl⟩
  obtain ⟨r01, r01_eq⟩ : ∃ r01 : BitVec (2 * w),
      acc.r1.setWidth (2 * w) <<< w ||| acc.r0.setWidth (2 * w) = r01 := ⟨_, rfl⟩
  have product : p.toNat = a.toNat * b.toNat := by rw [← p_eq, toNat_product]
  have joined : r01.toNat = acc.r0.toNat + 2 ^ w * acc.r1.toNat := by
    rw [← r01_eq, toNat_joined]
  have square : 2 ^ (2 * w) = 2 ^ w * 2 ^ w := by ring
  have cube : 2 ^ (3 * w) = 2 ^ (2 * w) * 2 ^ w := by ring
  have total := wrapped_sum r01 p
  have value_acc := acc.value_eq
  have r2_eq : (acc.r2 + wordOfBool (r01 + p < p)).toNat =
      acc.r2.toNat + (decide (r01 + p < p)).toNat := by
    have high : 2 ^ (2 * w) * (acc.r2.toNat + (decide (r01 + p < p)).toNat) <
        2 ^ (2 * w) * 2 ^ w := by
      rw [mul_add]
      omega
    rw [BitVec.toNat_add, toNat_wordOfBool positive,
      Nat.mod_eq_of_lt (Nat.lt_of_mul_lt_mul_left high)]
  have low : ((r01 + p).setWidth w).toNat = (r01 + p).toNat % 2 ^ w := BitVec.toNat_setWidth ..
  have middle : ((r01 + p) >>> w |>.setWidth w).toNat = (r01 + p).toNat / 2 ^ w := by
    have bound := (r01 + p).isLt
    rw [square] at bound
    rw [BitVec.toNat_setWidth, BitVec.toNat_ushiftRight, Nat.shiftRight_eq_div_pow,
      Nat.mod_eq_of_lt (Nat.div_lt_of_lt_mul bound)]
  have parts := Nat.mod_add_div (r01 + p).toNat (2 ^ w)
  rw [MulAcc.value_eq, muladd]
  simp only [p_eq, r01_eq, low, middle, r2_eq, mul_add]
  omega

/-- The products of `count` words from `i` up that meet in column `k`. -/
def columnProducts (left right : Vli w) (k i count : Nat) : Nat :=
  ∑ j ∈ range count, (left.getD (i + j) 0#w).toNat * (right.getD (k - (i + j)) 0#w).toNat

theorem columnProducts_succ (left right : Vli w) (k i count : Nat) :
    columnProducts left right k i (count + 1) =
      (left.getD i 0#w).toNat * (right.getD (k - i) 0#w).toNat +
        columnProducts left right k (i + 1) count := by
  rw [columnProducts, Finset.sum_range_succ', Nat.add_comm, columnProducts]
  simp only [Nat.add_zero, Nat.add_assoc, Nat.add_comm 1]

theorem value_multColumn (positive : 0 < w) (left right : Vli w) (k i count : Nat) {acc : MulAcc w}
    (room : acc.value + columnProducts left right k i count < 2 ^ (3 * w)) :
    (multColumn left right k i count acc).value =
      acc.value + columnProducts left right k i count := by
  induction count generalizing i acc with
  | zero => rfl
  | succ count ih =>
      rw [columnProducts_succ] at room ⊢
      have step := value_muladd positive (left.getD i 0#w) (right.getD (k - i) 0#w)
        (show acc.value + _ < _ by omega)
      rw [multColumn, ih (i + 1) (by omega), step, Nat.add_assoc]

/-- The digits of the columns and the three words left make up the columns. -/
theorem multColumns_spec (positive : 0 < w) (left right : Vli w) (start limit : Nat → Nat)
    (k count : Nat) (acc : MulAcc w)
    (room : ∀ j < count,
      columnProducts left right (k + j) (start (k + j)) (limit (k + j) - start (k + j)) +
        2 ^ (2 * w) ≤ 2 ^ (3 * w))
    (small : acc.value < 2 ^ (2 * w)) :
    (multColumns left right start limit k count acc).1.length = count ∧
      (multColumns left right start limit k count acc).2.value < 2 ^ (2 * w) ∧
      Limbs.value (multColumns left right start limit k count acc).1 +
          (2 ^ w) ^ count * (multColumns left right start limit k count acc).2.value =
        acc.value + ∑ j ∈ range count,
          columnProducts left right (k + j) (start (k + j)) (limit (k + j) - start (k + j)) *
            (2 ^ w) ^ j := by
  induction count generalizing k acc with
  | zero => exact ⟨rfl, small, by simp [multColumns]⟩
  | succ count ih =>
      have first := room 0 (Nat.succ_pos count)
      rw [Nat.add_zero] at first
      have column := value_multColumn positive left right k (start k) (limit k - start k)
        (show acc.value + _ < _ by omega)
      obtain ⟨length_eq, last, total⟩ := ih (k + 1)
        (multColumn left right k (start k) (limit k - start k) acc).shift
        (fun j inside => by
          rw [Nat.add_assoc, Nat.add_comm 1 j]
          exact room (j + 1) (Nat.succ_lt_succ inside))
        (MulAcc.value_shift_lt _)
      refine ⟨by rw [multColumns, List.length_cons, length_eq], last, ?_⟩
      rw [multColumns, Limbs.value_cons, Finset.sum_range_succ', Nat.add_zero, pow_zero, mul_one]
      have digit := MulAcc.value_shift (multColumn left right k (start k) (limit k - start k) acc)
      rw [column] at digit
      have shifted : ∑ j ∈ range count, columnProducts left right (k + (j + 1))
            (start (k + (j + 1))) (limit (k + (j + 1)) - start (k + (j + 1))) *
            (2 ^ w) ^ (j + 1) =
          2 ^ w * ∑ j ∈ range count, columnProducts left right (k + 1 + j) (start (k + 1 + j))
            (limit (k + 1 + j) - start (k + 1 + j)) * (2 ^ w) ^ j := by
        rw [Finset.mul_sum]
        refine Finset.sum_congr rfl fun j _ => ?_
        rw [show k + (j + 1) = k + 1 + j by omega]
        ring
      rw [shifted]
      linear_combination 2 ^ w * total + digit

/-- Column `k` of a product. -/
def vliColumn (left right : Vli w) (k : Nat) : Nat :=
  Columns.column (fun i => (left.getD i 0#w).toNat) (fun i => (right.getD i 0#w).toNat)
    left.length right.length k

/-- A column has room in three words, next to a carry of two. -/
theorem columnProducts_room {left right : Vli w} {k i count : Nat} (few : count < 2 ^ w) :
    columnProducts left right k i count + 2 ^ (2 * w) ≤ 2 ^ (3 * w) := by
  have each : columnProducts left right k i count ≤ count * (2 ^ w * 2 ^ w) := by
    calc columnProducts left right k i count
        ≤ ∑ _j ∈ range count, 2 ^ w * 2 ^ w :=
          Finset.sum_le_sum fun j _ => Nat.mul_le_mul (BitVec.isLt _).le (BitVec.isLt _).le
      _ = count * (2 ^ w * 2 ^ w) := by rw [Finset.sum_const, Finset.card_range, smul_eq_mul]
  calc columnProducts left right k i count + 2 ^ (2 * w)
      ≤ count * (2 ^ w * 2 ^ w) + 2 ^ w * 2 ^ w := by
        rw [two_mul, pow_add]
        exact Nat.add_le_add_right each _
    _ = (count + 1) * (2 ^ w * 2 ^ w) := by ring
    _ ≤ 2 ^ w * (2 ^ w * 2 ^ w) := Nat.mul_le_mul_right _ few
    _ = 2 ^ (3 * w) := by ring

section Product

variable {left right : Vli w} (lengths : left.length = right.length)
  (nonempty : 0 < left.length)

include lengths

theorem vliColumn_eq {k i count : Nat} (nonempty : 0 < left.length)
    (start : i = k - min k (left.length - 1))
    (window : count = min (left.length - i) (min k (left.length - 1) + 1)) :
    columnProducts left right k i count = vliColumn left right k := by
  rw [lengths] at nonempty
  rw [vliColumn, Columns.column_eq_window nonempty, columnProducts, start, window, start, lengths]
  refine Finset.sum_congr rfl fun j inside => ?_
  rw [Finset.mem_range] at inside
  rw [show k - (k - min k (right.length - 1) + j) = min k (right.length - 1) - j by omega]

/-- The window of the first loop. -/
theorem columnProducts_low {k : Nat} (inside : k < left.length) :
    columnProducts left right k 0 (k + 1) = vliColumn left right k :=
  vliColumn_eq lengths (by omega) (by omega) (by omega)

include nonempty

/-- The window of the second loop. -/
theorem columnProducts_high {k : Nat} (beyond : left.length ≤ k) :
    columnProducts left right k (k + 1 - left.length) (left.length - (k + 1 - left.length)) =
      vliColumn left right k :=
  vliColumn_eq lengths nonempty (by omega) (by omega)

/-- The columns of the two loops add up to the product; the last column is empty. -/
theorem sum_vliColumn :
    ∑ j ∈ range left.length, vliColumn left right j * (2 ^ w) ^ j +
        (2 ^ w) ^ left.length *
          ∑ j ∈ range (left.length - 1), vliColumn left right (left.length + j) * (2 ^ w) ^ j =
      Limbs.value left * Limbs.value right := by
  have last : vliColumn left right (left.length + (left.length - 1)) = 0 := by
    rw [← columnProducts_high lengths nonempty (by omega), show left.length -
      (left.length + (left.length - 1) + 1 - left.length) = 0 by omega]
    rfl
  have upper : ∑ j ∈ range left.length,
        vliColumn left right (left.length + j) * (2 ^ w) ^ (left.length + j) =
      (2 ^ w) ^ left.length *
        ∑ j ∈ range (left.length - 1), vliColumn left right (left.length + j) * (2 ^ w) ^ j := by
    obtain ⟨n, length_eq⟩ := Nat.exists_eq_succ_of_ne_zero nonempty.ne'
    have top := last
    rw [length_eq, Nat.succ_sub_one] at top ⊢
    rw [Finset.sum_range_succ, top, zero_mul, add_zero, Finset.mul_sum]
    exact Finset.sum_congr rfl fun j _ => by ring
  rw [← upper, ← Finset.sum_range_add, Limbs.value_eq_sum, Limbs.value_eq_sum,
    ← Columns.sum_column]
  simp only [vliColumn, lengths]

/-- The loops compute the product, for fewer words than a word can count. -/
theorem vliProduct_spec (positive : 0 < w) (few : left.length < 2 ^ w) :
    (vliProduct left right).length = 2 * left.length ∧
      Limbs.value (vliProduct left right) = Limbs.value left * Limbs.value right := by
  obtain ⟨lowLength, lowSmall, lowTotal⟩ := multColumns_spec positive left right
    (fun _ => 0) (fun k => k + 1) 0 left.length ⟨0#w, 0#w, 0#w⟩
    (fun j inside => columnProducts_room (by omega))
    (by simp [MulAcc.value])
  obtain ⟨highLength, highSmall, highTotal⟩ := multColumns_spec positive left
    right (fun k => k + 1 - left.length) (fun _ => left.length) left.length (left.length - 1)
    (multColumns left right (fun _ => 0) (fun k => k + 1) 0 left.length ⟨0#w, 0#w, 0#w⟩).2
    (fun j inside => columnProducts_room (by omega))
    lowSmall
  have lowColumns : ∀ j ∈ range left.length,
      columnProducts left right (0 + j) 0 (0 + j + 1 - 0) * (2 ^ w) ^ j =
        vliColumn left right j * (2 ^ w) ^ j := by
    intro j inside
    rw [Nat.zero_add, Nat.sub_zero, columnProducts_low lengths (Finset.mem_range.mp inside)]
  have highColumns : ∀ j ∈ range (left.length - 1),
      columnProducts left right (left.length + j) (left.length + j + 1 - left.length)
          (left.length - (left.length + j + 1 - left.length)) * (2 ^ w) ^ j =
        vliColumn left right (left.length + j) * (2 ^ w) ^ j := by
    intro j _
    rw [columnProducts_high lengths nonempty (Nat.le_add_right _ j)]
  rw [Finset.sum_congr rfl lowColumns] at lowTotal
  rw [Finset.sum_congr rfl highColumns] at highTotal
  obtain ⟨low, low_eq⟩ : ∃ low, multColumns left right (fun _ => 0) (fun k => k + 1) 0 left.length
      ⟨0#w, 0#w, 0#w⟩ = low := ⟨_, rfl⟩
  rw [low_eq] at lowLength lowTotal highLength highSmall highTotal
  obtain ⟨high, high_eq⟩ : ∃ high, multColumns left right (fun k => k + 1 - left.length)
      (fun _ => left.length) left.length (left.length - 1) low.2 = high := ⟨_, rfl⟩
  rw [high_eq] at highLength highSmall highTotal
  have zero : MulAcc.value (⟨0#w, 0#w, 0#w⟩ : MulAcc w) = 0 := by simp [MulAcc.value]
  have product : Limbs.value low.1 + (2 ^ w) ^ left.length *
        (Limbs.value high.1 + (2 ^ w) ^ (left.length - 1) * high.2.value) =
      Limbs.value left * Limbs.value right := by
    rw [← sum_vliColumn lengths nonempty, highTotal]
    linear_combination lowTotal + zero
  -- The product fits in the digits and one word, so that nothing is left in the other two.
  have single : high.2.value < 2 ^ w := by
    by_contra large
    have reached := Nat.mul_le_mul_left ((2 ^ w) ^ left.length)
      (Nat.mul_le_mul_left ((2 ^ w) ^ (left.length - 1)) (Nat.le_of_not_lt large))
    have fits := Nat.mul_lt_mul'' (Limbs.value_lt left) (Limbs.value_lt right)
    rw [← lengths, pow_mul] at fits
    rw [← pow_succ, Nat.sub_add_cancel nonempty] at reached
    rw [mul_add] at product
    omega
  have digit := MulAcc.value_eq_of_lt single
  constructor
  · simp only [vliProduct, low_eq, high_eq, List.length_append, lowLength, highLength,
      List.length_singleton]
    omega
  · simp only [vliProduct, low_eq, high_eq]
    rw [← product, digit, Limbs.value_append, Limbs.value_append, List.length_append, lowLength,
      highLength, Limbs.value_cons, Limbs.value_nil, pow_mul, pow_mul, pow_add]
    ring

end Product

/-- `ecdsa_vli_mult` computes the product, for as many words as its counter can count. -/
theorem vliMult_spec {left right : Vli w} (wide : 8 ≤ w) (lengths : left.length = right.length)
    (nonempty : 0 < left.length) (few : left.length ≤ 64) :
    Returns (vliMult left right) fun product =>
      product.length = 2 * left.length ∧
        Limbs.value product = Limbs.value left * Limbs.value right := by
  rw [vliMult_eq few]
  exact Returns.ok (vliProduct_spec lengths nonempty (by omega) (lt_two_pow_of_le_64 wide few))

/-- The product is exact, fills twice as many words and does not depend on the order of the
factors, although the columns are summed in another order. -/
theorem vliMult_exact {left right : Vli w} (wide : 8 ≤ w) (lengths : left.length = right.length)
    (nonempty : 0 < left.length) (few : left.length ≤ 64) :
    ∃ product, vliMult left right = .ok product ∧ vliMult right left = .ok product ∧
      product.length = 2 * left.length ∧
      Limbs.value product = Limbs.value left * Limbs.value right := by
  obtain ⟨product, returned, length_eq, value_eq⟩ := vliMult_spec wide lengths nonempty few
  obtain ⟨swapped, swappedReturned, swappedLength, swappedValue⟩ :=
    vliMult_spec wide lengths.symm (lengths ▸ nonempty) (lengths ▸ few)
  have same : swapped = product := by
    apply Limbs.eq_of_value_eq
    · rw [length_eq, swappedLength, lengths]
    · rw [value_eq, swappedValue, Nat.mul_comm]
  exact ⟨product, returned, same ▸ swappedReturned, length_eq, value_eq⟩

theorem vliMult_exact_largest :
    ∃ product, vliMult [0xff#8, 0xff#8] [0xff#8, 0xff#8] = .ok product ∧
      Limbs.value product = Limbs.value [0xff#8, 0xff#8] * Limbs.value [0xff#8, 0xff#8] := by
  obtain ⟨product, returned, _, _, value_eq⟩ :=
    @vliMult_exact 8 [0xff, 0xff] [0xff, 0xff] le_rfl rfl (by decide) (by decide)
  exact ⟨product, returned, value_eq⟩

end Freecoin
