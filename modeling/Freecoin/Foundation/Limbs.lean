import Mathlib.Algebra.BigOperators.Intervals
import Mathlib.Algebra.BigOperators.Ring.Finset
import Mathlib.Data.Nat.Digits.Defs
import Mathlib.Data.Nat.Size
import Mathlib.Tactic.Ring

/-!
# Numbers in machine words

A number kept as a list of words of one width, least significant word first: the value of a list,
what its parts contribute, and the order of two lists of one length.
-/

namespace Foundation.Limbs

variable {w : Nat}

theorem toNat_pos_of_ne_zero {word : BitVec w} (nonzero : word ≠ 0#w) : 0 < word.toNat :=
  Nat.pos_of_ne_zero fun zero => nonzero (BitVec.eq_of_toNat_eq (by rw [zero, BitVec.toNat_zero]))

/-- The number a list of words stands for. -/
def value (words : List (BitVec w)) : Nat := Nat.ofDigits (2 ^ w) (words.map BitVec.toNat)

@[simp] theorem value_nil : value ([] : List (BitVec w)) = 0 := rfl

@[simp] theorem value_cons (word : BitVec w) (words : List (BitVec w)) :
    value (word :: words) = word.toNat + 2 ^ w * value words := by
  simp [value, Nat.ofDigits_cons]

theorem value_append (low high : List (BitVec w)) :
    value (low ++ high) = value low + 2 ^ (w * low.length) * value high := by
  simp [value, Nat.ofDigits_append, pow_mul]

@[simp] theorem value_replicate_zero (count : Nat) : value (List.replicate count 0#w) = 0 := by
  simp [value, Nat.ofDigits_replicate_zero]

/-- One more word has room for `w` more bits. -/
theorem pow_mul_succ (w count : Nat) : 2 ^ (w * (count + 1)) = 2 ^ w * 2 ^ (w * count) := by
  rw [Nat.mul_succ, pow_add, mul_comm]

theorem value_lt (words : List (BitVec w)) : value words < 2 ^ (w * words.length) := by
  induction words with
  | nil => simp
  | cons word words ih =>
      rw [value_cons, List.length_cons, pow_mul_succ]
      calc word.toNat + 2 ^ w * value words
          < 2 ^ w + 2 ^ w * value words := Nat.add_lt_add_right word.isLt _
        _ = 2 ^ w * (value words + 1) := by ring
        _ ≤ 2 ^ w * 2 ^ (w * words.length) := Nat.mul_le_mul_left _ ih

theorem value_eq_take_add_drop {words : List (BitVec w)} {count : Nat}
    (inside : count ≤ words.length) :
    value words = value (words.take count) + 2 ^ (w * count) * value (words.drop count) := by
  conv_lhs => rw [← List.take_append_drop count words]
  rw [value_append, List.length_take_of_le inside]

theorem value_take_succ {words : List (BitVec w)} {count : Nat} (inside : count < words.length) :
    value (words.take (count + 1)) =
      value (words.take count) + 2 ^ (w * count) * (words.getD count 0#w).toNat := by
  rw [List.take_add_one, List.getD_eq_getElem?_getD, List.getElem?_eq_getElem inside, value_append,
    List.length_take_of_le inside.le]
  simp

/-- A number that fits in the lower words has all of its value there. -/
theorem value_take_of_lt {words : List (BitVec w)} {count : Nat} (inside : count ≤ words.length)
    (small : value words < 2 ^ (w * count)) : value (words.take count) = value words := by
  have parts := value_eq_take_add_drop inside
  have none : value (words.drop count) = 0 := by
    by_contra nonzero
    have large := Nat.le_mul_of_pos_right (2 ^ (w * count)) (Nat.pos_of_ne_zero nonzero)
    omega
  rw [parts, none, mul_zero, add_zero]

/-- Lists of one length with one value are equal. -/
theorem eq_of_value_eq {left right : List (BitVec w)} (lengths : left.length = right.length)
    (values : value left = value right) : left = right := by
  induction left generalizing right with
  | nil => exact (List.length_eq_zero_iff.mp lengths.symm).symm
  | cons word left ih =>
      obtain ⟨other, right, rfl⟩ := List.exists_cons_of_length_eq_add_one lengths.symm
      rw [value_cons, value_cons] at values
      have positive : 0 < 2 ^ w := Nat.two_pow_pos w
      have low : word.toNat = other.toNat := by
        have remainders := congrArg (· % 2 ^ w) values
        simpa [Nat.add_mul_mod_self_left, Nat.mod_eq_of_lt word.isLt,
          Nat.mod_eq_of_lt other.isLt] using remainders
      have high : value left = value right := by
        rw [low] at values
        exact Nat.eq_of_mul_eq_mul_left positive (Nat.add_left_cancel values)
      rw [BitVec.eq_of_toNat_eq low, ih (Nat.succ.inj lengths) high]

theorem value_eq_zero_iff {words : List (BitVec w)} :
    value words = 0 ↔ ∀ word ∈ words, word = 0#w := by
  constructor
  · intro zero
    have all : words = List.replicate words.length 0#w :=
      eq_of_value_eq (by simp) (by rw [zero, value_replicate_zero])
    intro word member
    rw [all] at member
    exact List.eq_of_mem_replicate member
  · intro zeros
    rw [List.eq_replicate_of_mem zeros, value_replicate_zero]

/-- The higher part decides. -/
theorem add_mul_lt_add_mul {base low high top : Nat} (other : Nat) (small : low < base)
    (below : high < top) :
    low + base * high < other + base * top := by
  have next : base * (high + 1) ≤ base * top := Nat.mul_le_mul_left _ below
  rw [Nat.mul_succ] at next
  omega

theorem value_eq_sum (words : List (BitVec w)) :
    value words = ∑ i ∈ Finset.range words.length, (words.getD i 0#w).toNat * (2 ^ w) ^ i := by
  induction words with
  | nil => rfl
  | cons word words ih =>
      rw [value_cons, ih, List.length_cons, Finset.sum_range_succ', Finset.mul_sum]
      simp only [List.getD_cons_succ, List.getD_cons_zero, pow_zero, mul_one, pow_succ]
      rw [Nat.add_comm]
      congr 1
      exact Finset.sum_congr rfl fun i _ => by ring

/-- Bit `index` of a number, found in the word that holds it. -/
theorem testBit_value (positive : 0 < w) (words : List (BitVec w)) (index : Nat) :
    (value words).testBit index = (words.getD (index / w) 0#w).getLsbD (index % w) := by
  induction words generalizing index with
  | nil => simp
  | cons word words ih =>
      rw [value_cons, Nat.add_comm, Nat.testBit_two_pow_mul_add _ word.isLt]
      by_cases low : index < w
      · rw [if_pos low, Nat.div_eq_of_lt low, Nat.mod_eq_of_lt low]
        rfl
      · obtain ⟨rest, rfl⟩ := Nat.exists_eq_add_of_le (Nat.le_of_not_lt low)
        rw [if_neg low, Nat.add_sub_cancel_left, ih, Nat.add_div_left _ positive,
          Nat.add_mod_left, List.getD_cons_succ]

/-- The size of a number in bits is the size of its highest part, above the room below it. -/
theorem size_add_two_pow_mul {low high count : Nat} (small : low < 2 ^ count) (nonzero : 0 < high) :
    Nat.size (low + 2 ^ count * high) = count + Nat.size high := by
  apply le_antisymm
  · have bound : high + 1 ≤ 2 ^ Nat.size high := Nat.lt_size_self high
    rw [Nat.size_le, pow_add]
    calc low + 2 ^ count * high
        < 2 ^ count + 2 ^ count * high := Nat.add_lt_add_right small _
      _ = 2 ^ count * (high + 1) := by ring
      _ ≤ 2 ^ count * 2 ^ Nat.size high := Nat.mul_le_mul_left _ bound
  · obtain ⟨bits, size_eq⟩ := Nat.exists_eq_succ_of_ne_zero (Nat.size_pos.mpr nonzero).ne'
    have reached : 2 ^ bits ≤ high := by
      rw [← Nat.lt_size, size_eq]
      exact Nat.lt_succ_self bits
    rw [size_eq, Nat.succ_eq_add_one, ← Nat.add_assoc, Nat.succ_le_iff, Nat.lt_size, pow_add]
    exact (Nat.mul_le_mul_left _ reached).trans (Nat.le_add_left _ low)

/-- Bits that are set in one word are set in the number. -/
theorem value_set_or (positive : 0 < w) {words : List (BitVec w)} {index : Nat}
    (inside : index < words.length) (bits : BitVec w) :
    value (words.set index (words.getD index 0#w ||| bits)) =
      value words ||| bits.toNat <<< (w * index) := by
  apply Nat.eq_of_testBit_eq
  intro place
  rw [Nat.testBit_or, Nat.testBit_shiftLeft, testBit_value positive, testBit_value positive,
    List.getD_eq_getElem?_getD, List.getElem?_set, BitVec.testBit_toNat]
  have parts := Nat.div_add_mod place w
  have offset := Nat.mod_lt place positive
  by_cases here : index = place / w
  · have above : w * index ≤ place := here ▸ Nat.mul_div_le place w
    have rest : place - w * index = place % w := by
      rw [here]
      omega
    rw [if_pos here, if_pos inside, Option.getD_some, BitVec.getLsbD_or, rest, decide_eq_true above,
      Bool.true_and, here]
  · rw [if_neg here, ← List.getD_eq_getElem?_getD]
    by_cases above : w * index ≤ place
    · have further : w ≤ place - w * index := by
        have next : index + 1 ≤ place / w := by
          have reached := (Nat.le_div_iff_mul_le positive).mpr (mul_comm w index ▸ above)
          omega
        have bound := (Nat.le_div_iff_mul_le positive).mp next
        rw [Nat.succ_mul, mul_comm index w] at bound
        omega
      rw [BitVec.getLsbD_of_ge _ _ further, Bool.and_false, Bool.or_false]
    · rw [decide_eq_false above, Bool.false_and, Bool.or_false]

end Foundation.Limbs
