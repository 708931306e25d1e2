import Freecoin.BigSums
import Freecoin.Foundation.Columns
import Mathlib.Algebra.Order.BigOperators.Group.Finset

/-!
# Multiplying and dividing big numbers

`big_mult` computes the product by columns, with the carry in a 32-bit accumulator, and `big_div`
divides by a small number from the highest byte down, with the remainder in 16 bits.  Within the
bounds given here neither the accumulator nor the remainder loses anything.
-/

namespace Freecoin

open Foundation
open Finset (range)

/-- Byte `index` of a number. -/
def digit (data : List UInt8) (index : Nat) : Nat := (data.getD index 0).toNat

theorem digit_of_lt {data : List UInt8} {index : Nat} (inside : index < data.length) :
    digit data index = data[index].toNat := by
  simp [digit, inside]

theorem digit_le (data : List UInt8) (index : Nat) : digit data index ≤ 255 :=
  Nat.le_of_lt_succ (data.getD index 0).toNat_lt

theorem digit_replicate_zero (count index : Nat) : digit (List.replicate count 0) index = 0 := by
  rw [digit, List.getD_eq_getElem?_getD, List.getElem?_replicate]
  split <;> rfl

theorem digit_set_self {data : List UInt8} {index : Nat} (byte : UInt8)
    (inside : index < data.length) : digit (data.set index byte) index = byte.toNat := by
  simp [digit, inside]

theorem digit_set_of_ne {index other : Nat} (data : List UInt8) (byte : UInt8)
    (different : index ≠ other) : digit (data.set index byte) other = digit data other := by
  rw [digit, digit, List.getD_eq_getElem?_getD, List.getD_eq_getElem?_getD,
    List.getElem?_set_ne different]

theorem length_pos_of_le_bigValue {data : List UInt8} (wide : 256 ≤ bigValue data) :
    1 ≤ data.length := by
  cases data with
  | nil => simp at wide
  | cons byte data => exact Nat.succ_le_succ (Nat.zero_le _)

theorem bigValue_take_eq_sum {data : List UInt8} {n : Nat} (inside : n ≤ data.length) :
    bigValue (data.take n) = ∑ p ∈ range n, digit data p * 256 ^ p := by
  induction n with
  | zero => rfl
  | succ n ih =>
      rw [bigValue_take_succ inside, ih (by omega), Finset.sum_range_succ, digit_of_lt inside]

/-! ## Multiplication -/

/-- From product `j` on, the inner loop of `big_mult` reads inside both numbers, and adding the
product to the accumulator does not wrap. -/
def DigitSafe (a b : List UInt8) (i1 i2 : UInt32) : (j remaining : Nat) → (t : UInt32) → Prop
  | _, 0, _ => True
  | j, remaining + 1, t =>
      i1.toNat + j < a.length ∧ j ≤ i2.toNat ∧ i2.toNat - j < b.length ∧
        t.toNat + digit a (i1.toNat + j) * digit b (i2.toNat - j) < 2 ^ 32 ∧
        DigitSafe a b i1 i2 (j + 1) remaining
          (t + .ofNat (digit a (i1.toNat + j) * digit b (i2.toNat - j)))

/-- From column `i` on, no index expression of `big_mult` wraps and its inner loop is safe. -/
def ColumnsSafe (a b : List UInt8) (alen blen : UInt32) :
    (i remaining : Nat) → (t : UInt32) → Prop
  | _, 0, _ => True
  | i, remaining + 1, t =>
      let i2 : UInt32 := if UInt32.ofNat i < blen - 1 then .ofNat i else blen - 1
      let i1 : UInt32 := .ofNat i - i2
      let count2 : UInt32 := if alen - i1 < i2 + 1 then alen - i1 else i2 + 1
      i < 2 ^ 31 ∧ 1 ≤ blen.toNat ∧ i2.toNat ≤ i ∧ i1.toNat ≤ alen.toNat ∧
        DigitSafe a b i1 i2 0 count2.toNat t ∧
        ∃ sum, bigMultDigit a b i1 i2 0 count2.toNat t = .ok sum ∧
          ColumnsSafe a b alen blen (i + 1) remaining (sum >>> 8)

/-- The accumulator of the inner loop collects the products of its window. -/
theorem bigMultDigit_spec {a b : List UInt8} {i1 i2 : UInt32} {j remaining : Nat} {t : UInt32}
    (insideA : i1.toNat + (j + remaining) ≤ a.length) (insideB : i2.toNat < b.length)
    (window : j + remaining ≤ i2.toNat + 1) (small : a.length < 2 ^ 32)
    (room : t.toNat + 65025 * remaining < 2 ^ 32) :
    DigitSafe a b i1 i2 j remaining t ∧
      ∃ sum, bigMultDigit a b i1 i2 j remaining t = .ok sum ∧
        sum.toNat = t.toNat +
          ∑ k ∈ range remaining, digit a (i1.toNat + (j + k)) * digit b (i2.toNat - (j + k)) := by
  induction remaining generalizing j t with
  | zero => exact ⟨trivial, t, rfl, rfl⟩
  | succ remaining ih =>
      have j_eq : (UInt32.ofNat j).toNat = j :=
        toNat_ofNat_of_lt (by omega)
      have upper := i2.toNat_lt
      have left : (i1 + .ofNat j).toNat = i1.toNat + j := by
        rw [UInt32.toNat_add, j_eq]
        omega
      have right : (i2 - .ofNat j).toNat = i2.toNat - j := by
        rw [UInt32.toNat_sub, j_eq]
        omega
      have withinA : i1.toNat + j < a.length := by omega
      have withinB : i2.toNat - j < b.length := by omega
      have bounded : digit a (i1.toNat + j) * digit b (i2.toNat - j) ≤ 255 * 255 :=
        Nat.mul_le_mul (digit_le _ _) (digit_le _ _)
      have product : a[i1.toNat + j].toUInt32 * b[i2.toNat - j].toUInt32 =
          .ofNat (digit a (i1.toNat + j) * digit b (i2.toNat - j)) := by
        rw [digit_of_lt withinA, digit_of_lt withinB, UInt32.ofNat_mul,
          UInt32.ofNat_uInt8ToNat, UInt32.ofNat_uInt8ToNat]
      set term := digit a (i1.toNat + j) * digit b (i2.toNat - j)
      have term_eq : (UInt32.ofNat term).toNat = term :=
        toNat_ofNat_of_lt (by omega)
      have added : (t + .ofNat term).toNat = t.toNat + term := by
        rw [UInt32.toNat_add, term_eq]
        omega
      obtain ⟨safe, sum, summed, value⟩ := ih (j := j + 1) (t := t + .ofNat term) (by omega)
        (by omega) (by omega)
      refine ⟨⟨withinA, by omega, withinB, by omega, safe⟩, sum, ?_, ?_⟩
      · rw [bigMultDigit, left, right, fetch_of_lt withinA, Run.ok_bind, fetch_of_lt withinB,
          Run.ok_bind, product, summed]
      · rw [value, added, Finset.sum_range_succ', Nat.add_assoc, Nat.add_comm term]
        simp only [Nat.add_zero, Nat.add_assoc, Nat.add_comm 1]
        rfl

section Columns

open Columns (column)

variable {a b : List UInt8} {alen blen : UInt32} (insideA : alen.toNat ≤ a.length)
  (insideB : blen.toNat ≤ b.length) (positive : 1 ≤ blen.toNat) (smallA : a.length ≤ 65536)
  (smallB : b.length ≤ 65536)

include insideA insideB positive smallA smallB

/-- One column: the carry into it is at most 255 for each digit of the shorter number, which leaves
room for its products, and so is the carry out of it. -/
theorem bigMult_column {i : Nat} {t : UInt32} (before : i < alen.toNat + blen.toNat)
    (carry : t.toNat ≤ 255 * min alen.toNat blen.toNat) :
    let i2 : UInt32 := if UInt32.ofNat i < blen - 1 then .ofNat i else blen - 1
    let i1 : UInt32 := .ofNat i - i2
    let count2 : UInt32 := if alen - i1 < i2 + 1 then alen - i1 else i2 + 1
    i2.toNat ≤ i ∧ i1.toNat ≤ alen.toNat ∧ DigitSafe a b i1 i2 0 count2.toNat t ∧
      ∃ sum, bigMultDigit a b i1 i2 0 count2.toNat t = .ok sum ∧
        sum.toNat = t.toNat + column (digit a) (digit b) alen.toNat blen.toNat i ∧
        (sum >>> 8).toNat ≤ 255 * min alen.toNat blen.toNat := by
  intro i2 i1 count2
  obtain ⟨i2_eq, i1_eq, count_eq⟩ : i2.toNat = min i (blen.toNat - 1) ∧
      i1.toNat = i - min i (blen.toNat - 1) ∧
      count2.toNat = min (alen.toNat - i1.toNat) (i2.toNat + 1) :=
    toNat_multWindow positive (by omega) before
  have few : count2.toNat ≤ min alen.toNat blen.toNat := by omega
  obtain ⟨safe, sum, summed, value⟩ := bigMultDigit_spec (j := 0) (t := t)
    (show i1.toNat + (0 + count2.toNat) ≤ a.length by omega)
    (show i2.toNat < b.length by omega) (by omega) (by omega) (by omega)
  have products : ∑ k ∈ range count2.toNat,
      digit a (i1.toNat + (0 + k)) * digit b (i2.toNat - (0 + k)) ≤ count2.toNat * (255 * 255) := by
    refine (Finset.sum_le_card_nsmul _ _ (255 * 255) fun k _ => ?_).trans ?_
    · exact Nat.mul_le_mul (digit_le _ _) (digit_le _ _)
    · rw [Finset.card_range, nsmul_eq_mul, Nat.cast_id]
  refine ⟨by omega, by omega, safe, sum, summed, ?_, ?_⟩
  · rw [value, Columns.column_eq_window positive, ← i1_eq, ← i2_eq, ← count_eq]
    simp only [Nat.zero_add]
  · rw [toNat_carry]
    omega

/-- The outer loop adds the remaining columns to the result. -/
theorem bigMultLoop_spec {i remaining : Nat} {t : UInt32} {res : List UInt8}
    (whole : i + remaining = alen.toNat + blen.toNat) (room : i + remaining ≤ res.length)
    (carry : t.toNat ≤ 255 * min alen.toNat blen.toNat) (zeros : ∀ k, i ≤ k → digit res k = 0) :
    ColumnsSafe a b alen blen i remaining t ∧
      ∃ product rest, bigMultLoop a b alen blen i remaining t res = .ok product ∧
        product.length = res.length ∧
        bigValue product + rest * 256 ^ (i + remaining) = bigValue res + t.toNat * 256 ^ i +
          ∑ k ∈ range remaining,
            column (digit a) (digit b) alen.toNat blen.toNat (i + k) * 256 ^ (i + k) := by
  induction remaining generalizing i t res with
  | zero => exact ⟨trivial, res, t.toNat, rfl, rfl, rfl⟩
  | succ remaining ih =>
      obtain ⟨i2_le, i1_le, digitSafe, sum, summed, sum_eq, carryOut⟩ :=
        bigMult_column insideA insideB positive smallA smallB (by omega : i < _) carry
      have within : i < res.length := by omega
      have zerosAfter : ∀ k, i + 1 ≤ k → digit (res.set i (sum &&& 0xff).toUInt8) k = 0 := by
        intro k after
        rw [digit_set_of_ne res _ (by omega), zeros k (by omega)]
      obtain ⟨safe, product, rest, multiplied, length_eq, value⟩ :=
        ih (i := i + 1) (by omega) (by rw [List.length_set]; omega) carryOut zerosAfter
      have stored := bigValue_set_lowByte sum within
      rw [← digit_of_lt within, zeros i le_rfl, Nat.zero_mul, Nat.add_zero] at stored
      refine ⟨⟨by omega, positive, i2_le, i1_le, digitSafe, sum, summed, safe⟩, product, rest, ?_,
        by rw [length_eq, List.length_set], ?_⟩
      · rw [bigMultLoop, summed, Run.ok_bind, assign_of_lt within, Run.ok_bind, multiplied]
      · rw [show i + (remaining + 1) = i + 1 + remaining by omega, value, stored, sum_eq,
          Finset.sum_range_succ']
        simp only [Nat.add_zero, Nat.add_assoc, Nat.add_comm 1]
        ring

/-- It writes behind a result that has no room for all of them. -/
theorem bigMultLoop_overflow {i remaining : Nat} {t : UInt32} {res : List UInt8}
    (whole : i + remaining = alen.toNat + blen.toNat) (before : i ≤ res.length)
    (full : res.length < i + remaining) (carry : t.toNat ≤ 255 * min alen.toNat blen.toNat) :
    bigMultLoop a b alen blen i remaining t res = .error .outOfBounds := by
  induction remaining generalizing i t res with
  | zero => omega
  | succ remaining ih =>
      obtain ⟨_, _, _, sum, summed, _, carryOut⟩ :=
        bigMult_column insideA insideB positive smallA smallB (by omega : i < _) carry
      rw [bigMultLoop, summed, Run.ok_bind]
      by_cases within : i < res.length
      · have size_eq : (res.set i (sum &&& 0xff).toUInt8).length = res.length := List.length_set
        rw [assign_of_lt within, Run.ok_bind]
        exact ih (by omega) (by omega) (by omega) carryOut
      · rw [assign, if_neg within, Run.error_bind]

end Columns

/-- The whole of `big_mult`: the number of columns does not wrap, and no column does. -/
def MultSafe (a b : List UInt8) : Prop :=
  (bigLength a).toNat + (bigLength b).toNat < 2 ^ 32 ∧
    ColumnsSafe a b (bigLength a) (bigLength b) 0 (bigLength a + bigLength b).toNat 0

/-- `big_mult` of numbers of at least 256 with up to 65536 bytes each leaves the exact product in a
result with room for all its columns, and nothing wraps on the way. -/
theorem bigMult_exact (a b res : Bignum) (wideA : 256 ≤ a.value) (wideB : 256 ≤ b.value)
    (smallA : a.data.length ≤ 65536) (smallB : b.data.length ≤ 65536)
    (room : (bigLength a.data).toNat + (bigLength b.data).toNat ≤ res.data.length) :
    (∃ product, bigMult a.data b.data res.data = .ok product ∧
      product.length = res.data.length ∧ bigValue product = a.value * b.value) ∧
    MultSafe a.data b.data := by
  simp only [Bignum.value] at wideA wideB ⊢
  have lengthA := toNat_bigLength (length_pos_of_le_bigValue wideA) (by omega)
  have lengthB := toNat_bigLength (length_pos_of_le_bigValue wideB) (by omega)
  have insideA := countedBytes_le (bigValue_lt a.data)
  have insideB := countedBytes_le (bigValue_lt b.data)
  have belowA := lt_pow_countedBytes wideA
  have belowB := lt_pow_countedBytes wideB
  have positive : 1 ≤ countedBytes (bigValue b.data) := by
    rw [countedBytes, if_neg (Nat.not_lt.mpr wideB)]
    omega
  have count : (bigLength a.data + bigLength b.data).toNat =
      (bigLength a.data).toNat + (bigLength b.data).toNat := by
    rw [UInt32.toNat_add]
    omega
  obtain ⟨safe, product, rest, multiplied, length_eq, value⟩ := bigMultLoop_spec
    (show (bigLength a.data).toNat ≤ a.data.length by omega)
    (show (bigLength b.data).toNat ≤ b.data.length by omega) (by omega) smallA smallB (i := 0)
    (t := 0) ((Nat.zero_add _).trans count) (by rw [count, List.length_replicate]; omega)
    (Nat.zero_le _) fun k _ => digit_replicate_zero res.data.length k
  refine ⟨⟨product, multiplied, by rw [length_eq, List.length_replicate], ?_⟩, by omega, safe⟩
  simp only [count, Nat.zero_add, UInt32.toNat_zero, Nat.zero_mul, Nat.add_zero,
    bigValue_replicate_zero] at value
  rw [Columns.sum_column, ← bigValue_take_eq_sum (by omega), ← bigValue_take_eq_sum (by omega),
    lengthA, lengthB, bigValue_take_of_lt belowA, bigValue_take_of_lt belowB] at value
  have below : bigValue a.data * bigValue b.data <
      256 ^ (countedBytes (bigValue a.data) + countedBytes (bigValue b.data)) := by
    rw [Nat.pow_add]
    exact Nat.mul_lt_mul'' belowA belowB
  rcases Nat.eq_zero_or_pos rest with none | some
  · rw [none, Nat.zero_mul, Nat.add_zero] at value
    exact value
  · have more := Nat.le_mul_of_pos_left
      (256 ^ (countedBytes (bigValue a.data) + countedBytes (bigValue b.data))) some
    omega

/-- The product of 0x0102 and 0x0304. -/
theorem bigMult_exact_two :
    (∃ product, bigMult [2, 1] [4, 3] [9, 9, 9, 9, 9] = .ok product ∧ product.length = 5 ∧
      bigValue product = 0x0102 * 0x0304) ∧ MultSafe [2, 1] [4, 3] :=
  bigMult_exact ⟨[2, 1], by decide⟩ ⟨[4, 3], by decide⟩ ⟨[9, 9, 9, 9, 9], by decide⟩ (by decide)
    (by decide) (by decide) (by decide) (by decide)

/-! ## Division -/

/-- The remainder of `big_div` with the next byte shifted in. -/
def shiftIn (a : List UInt8) (x : Nat) (temp : UInt16) : UInt16 :=
  (temp <<< 8) ||| (a.getD x 0).toUInt16

/-- The step of `big_div` at index `x`: the remainder is below the divisor, the shift keeps all its
bits, and the digit of the quotient fits in a byte. -/
def DivStep (a : List UInt8) (b : UInt32) (x : Nat) (temp : UInt16) : Prop :=
  temp.toNat < b.toNat ∧ (temp <<< 8).toNat = temp.toNat * 256 ∧
    ((shiftIn a x temp).toUInt32 / b).toNat < 256

/-- All steps from index `x` down to 0. -/
def DivSteps (a : List UInt8) (b : UInt32) : (x : Nat) → (temp : UInt16) → Prop
  | 0, temp => DivStep a b 0 temp
  | x + 1, temp =>
      DivStep a b (x + 1) temp ∧
        DivSteps a b x ((shiftIn a (x + 1) temp).toUInt32 -
          ((shiftIn a (x + 1) temp).toUInt32 / b).toUInt8.toUInt32 * b).toUInt16

theorem bigDivLoop_zero {a res : List UInt8} (b : UInt32) (temp : UInt16) (insideA : 0 < a.length)
    (insideRes : 0 < res.length) :
    bigDivLoop a b 0 temp res = .ok (res.set 0 ((shiftIn a 0 temp).toUInt32 / b).toUInt8) := by
  have byte : a.getD 0 0 = a[0] := by simp [insideA]
  rw [bigDivLoop, fetch_of_lt insideA, Run.ok_bind, shiftIn, byte]
  simp only [assign_of_lt insideRes, Run.ok_bind]

theorem bigDivLoop_succ {a res : List UInt8} {x : Nat} (b : UInt32) (temp : UInt16)
    (insideA : x + 1 < a.length) (insideRes : x + 1 < res.length) :
    bigDivLoop a b (x + 1) temp res =
      bigDivLoop a b x
        ((shiftIn a (x + 1) temp).toUInt32 -
          ((shiftIn a (x + 1) temp).toUInt32 / b).toUInt8.toUInt32 * b).toUInt16
        (res.set (x + 1) ((shiftIn a (x + 1) temp).toUInt32 / b).toUInt8) := by
  have byte : a.getD (x + 1) 0 = a[x + 1] := by simp [insideA]
  rw [bigDivLoop, fetch_of_lt insideA, Run.ok_bind, shiftIn, byte]
  simp only [assign_of_lt insideRes, Run.ok_bind]

section Division

variable {a : List UInt8} {b : UInt32} (divisor : b.toNat ≤ 256)

include divisor

/-- A step divides the remainder with the next byte shifted in. -/
theorem divStep_spec {x : Nat} {temp : UInt16} (below : temp.toNat < b.toNat) :
    let shifted := shiftIn a x temp
    let quotient := (shifted.toUInt32 / b).toUInt8
    DivStep a b x temp ∧ shifted.toNat = temp.toNat * 256 + digit a x ∧
      quotient.toNat = shifted.toNat / b.toNat ∧
      (shifted.toUInt32 - quotient.toUInt32 * b).toUInt16.toNat = shifted.toNat % b.toNat := by
  intro shifted quotient
  have byte := digit_le a x
  have moved : (temp <<< 8).toNat = temp.toNat * 256 := by
    rw [UInt16.toNat_shiftLeft]
    change temp.toNat <<< 8 % 2 ^ 16 = _
    rw [Nat.shiftLeft_eq]
    omega
  have shifted_eq : shifted.toNat = temp.toNat * 256 + digit a x := by
    simp only [shifted, shiftIn]
    rw [UInt16.toNat_or, moved, UInt8.toNat_toUInt16, Nat.mul_comm]
    change 2 ^ 8 * temp.toNat ||| digit a x = _
    exact (Nat.two_pow_add_eq_or_of_lt (show digit a x < 2 ^ 8 by omega) temp.toNat).symm
  have bound : shifted.toNat < 256 * b.toNat := by omega
  have small : shifted.toNat / b.toNat < 256 := Nat.div_lt_of_lt_mul (by rwa [Nat.mul_comm])
  have divided : (shifted.toUInt32 / b).toNat = shifted.toNat / b.toNat := by
    rw [UInt32.toNat_div, UInt16.toNat_toUInt32]
  have quotient_eq : quotient.toNat = shifted.toNat / b.toNat := by
    simp only [quotient]
    rw [UInt32.toNat_toUInt8, divided]
    omega
  have product : (quotient.toUInt32 * b).toNat = shifted.toNat / b.toNat * b.toNat := by
    rw [UInt32.toNat_mul, UInt8.toNat_toUInt32, quotient_eq]
    have atMost := Nat.div_mul_le_self shifted.toNat b.toNat
    omega
  refine ⟨⟨below, moved, divided.trans_lt small⟩, shifted_eq, quotient_eq, ?_⟩
  have whole := Nat.div_add_mod' shifted.toNat b.toNat
  rw [UInt32.toNat_toUInt16, UInt32.toNat_sub, product, UInt16.toNat_toUInt32]
  omega

omit divisor in
/-- Long division: a digit `q` with remainder `r` at some place, and the division of `r` and the
lower digits `tail`, are the division with the higher digit in front. -/
theorem longDivision_step {divisor q r temp byte low rest tail place : Nat}
    (divided : divisor * q + r = temp * 256 + byte)
    (lower : divisor * low + rest = r * place + tail) :
    divisor * (low + q * place) + rest = temp * (place * 256) + (tail + byte * place) := by
  calc divisor * (low + q * place) + rest
      = (divisor * low + rest) + divisor * q * place := by ring
    _ = (divisor * q + r) * place + tail := by rw [lower]; ring
    _ = temp * (place * 256) + (tail + byte * place) := by rw [divided]; ring

/-- The loop writes the quotient of what it still has to divide, and leaves the higher bytes
alone. -/
theorem bigDivLoop_spec {x : Nat} {temp : UInt16} {res : List UInt8} (below : temp.toNat < b.toNat)
    (insideA : x < a.length) (insideRes : x < res.length) :
    DivSteps a b x temp ∧ ∃ quotient rest, bigDivLoop a b x temp res = .ok quotient ∧
      quotient.length = res.length ∧ (∀ k, x < k → digit quotient k = digit res k) ∧
      rest < b.toNat ∧
      b.toNat * bigValue (quotient.take (x + 1)) + rest =
        temp.toNat * 256 ^ (x + 1) + bigValue (a.take (x + 1)) := by
  have positive : 0 < b.toNat := Nat.zero_lt_of_lt below
  induction x generalizing temp res with
  | zero =>
      obtain ⟨step, shifted, divided, _⟩ := divStep_spec (a := a) (x := 0) divisor below
      have whole := Nat.div_add_mod (shiftIn a 0 temp).toNat b.toNat
      refine ⟨step, _, (shiftIn a 0 temp).toNat % b.toNat, bigDivLoop_zero b temp insideA insideRes,
        List.length_set, ?_, Nat.mod_lt _ positive, ?_⟩
      · intro k after
        exact digit_set_of_ne res _ (by omega)
      · rw [bigValue_take_eq_sum (by rw [List.length_set]; omega), bigValue_take_eq_sum insideA]
        simp only [Nat.zero_add, Finset.sum_range_one, Nat.pow_zero, Nat.mul_one, Nat.pow_one]
        rw [digit_set_self _ insideRes, divided, whole, shifted]
  | succ x ih =>
      obtain ⟨step, shifted, divided, remainder⟩ :=
        divStep_spec (a := a) (x := x + 1) divisor below
      have whole := Nat.div_add_mod (shiftIn a (x + 1) temp).toNat b.toNat
      have less := Nat.mod_lt (shiftIn a (x + 1) temp).toNat positive
      set written := res.set (x + 1) ((shiftIn a (x + 1) temp).toUInt32 / b).toUInt8
      have size_eq : written.length = res.length := List.length_set
      obtain ⟨steps, quotient, rest, returned, length_eq, above, rest_lt, value⟩ :=
        ih (by rwa [remainder]) (by omega) (show x < written.length by omega)
      have next : digit quotient (x + 1) = (shiftIn a (x + 1) temp).toNat / b.toNat := by
        rw [above (x + 1) (by omega), digit_set_self _ insideRes, divided]
      refine ⟨⟨step, steps⟩, quotient, rest, ?_, length_eq.trans size_eq, ?_, rest_lt, ?_⟩
      · rw [bigDivLoop_succ b temp insideA insideRes, returned]
      · intro k after
        rw [above k (by omega), digit_set_of_ne res _ (by omega)]
      · rw [bigValue_take_succ (by omega), bigValue_take_succ insideA, ← digit_of_lt, ← digit_of_lt,
          next]
        exact longDivision_step (whole.trans shifted) (value.trans (by rw [remainder]))

end Division

/-- The whole of `big_div` on up to 256 bytes. -/
theorem bigDiv_spec {a res : List UInt8} {b : UInt32} (nonempty : 1 ≤ a.length)
    (small : a.length ≤ 256) (size_eq : res.length = a.length) (low : 1 ≤ b.toNat)
    (high : b.toNat ≤ 256) :
    (∃ quotient, bigDiv a b res = .ok quotient ∧ quotient.length = res.length ∧
      bigValue quotient = bigValue a / b.toNat) ∧
    DivSteps a b (a.length - 1) 0 := by
  obtain ⟨steps, quotient, rest, divided, length_eq, _, rest_lt, value⟩ :=
    bigDivLoop_spec high (show (0 : UInt16).toNat < b.toNat from low)
      (show a.length - 1 < a.length by omega)
      (show _ < (List.replicate res.length (0 : UInt8)).length by
        rw [List.length_replicate]; omega)
  rw [List.length_replicate] at length_eq
  have last := toNat_lastIndex nonempty (by omega)
  have start : (UInt32.ofNat a.length - 1).toUInt8.toNat = a.length - 1 := by
    rw [UInt32.toNat_toUInt8, last]
    omega
  have inside : a.length - 1 < quotient.length := by omega
  have nonzero : b ≠ 0 := fun zero => by simp [zero] at low
  refine ⟨⟨quotient, ?_, length_eq, ?_⟩, steps⟩
  · rw [bigDiv, if_neg nonzero]
    simp only [start, last, divided, Run.ok_bind, fetch_of_lt inside, Run.pure_eq_ok]
  · rw [Nat.sub_add_cancel nonempty, List.take_length, List.take_of_length_le (by omega),
      UInt16.toNat_zero, Nat.zero_mul, Nat.zero_add] at value
    rw [← value, Nat.mul_add_div low, Nat.div_eq_of_lt rest_lt, Nat.add_zero]

/-- `big_div` of up to 256 bytes by a divisor of up to 256 returns the quotient rounded down: every
step starts with a remainder below the divisor and loses nothing. -/
theorem bigDiv_exact (a res : Bignum) (b : UInt32) (nonempty : 1 ≤ a.data.length)
    (small : a.data.length ≤ 256) (size_eq : res.data.length = a.data.length)
    (low : 1 ≤ b.toNat) (high : b.toNat ≤ 256) :
    (∃ quotient, bigDiv a.data b res.data = .ok quotient ∧ quotient.length = res.data.length ∧
      bigValue quotient = a.value / b.toNat) ∧
    DivSteps a.data b (a.data.length - 1) 0 :=
  bigDiv_spec nonempty small size_eq low high

/-- Half of 0x010203. -/
theorem bigDiv_exact_half :
    (∃ quotient, bigDiv [3, 2, 1] 2 [9, 9, 9] = .ok quotient ∧ quotient.length = 3 ∧
      bigValue quotient = 0x010203 / 2) ∧ DivSteps [3, 2, 1] 2 2 0 :=
  bigDiv_exact ⟨[3, 2, 1], by decide⟩ ⟨[9, 9, 9], by decide⟩ 2 (by decide) (by decide) rfl
    (by decide) (by decide)

end Freecoin
