import Freecoin.Foundation.Limbs
import Freecoin.Foundation.Memory
import Mathlib.Tactic.LinearCombination

/-!
# Very long integers

The word arrays of `ecdsa.c`: the scans, the comparisons, the shift by one bit and the carry chains
of addition and subtraction.  The word width is a parameter, as `ecdsa_WORD_SIZE` is, and
`num_words` is the length of the arrays.  Every loop reads an index before it writes it, so that a
result may be stored over an operand.  Local arrays have room for 256 bits, whatever `num_words` is.
-/

namespace Freecoin

open Foundation

/-- An array of `ecdsa_word_t`, least significant word first. -/
abbrev Vli (w : Nat) := List (BitVec w)

variable {w : Nat}

/-! ## Local arrays -/

/-- `ecdsa_MAX_WORDS`: the words of 256 bits. -/
def ecdsaMaxWords (w : Nat) : Nat := 256 / w

/-- A run that writes `count` words into a local array of `size` words. -/
def withArray {α : Type} (size count : Nat) (run : Run α) : Run α :=
  if count ≤ size then run else .error .outOfBounds

theorem withArray_of_le {α : Type} {size count : Nat} (room : count ≤ size) (run : Run α) :
    withArray size count run = run := if_pos room

/-- Words of at least eight bits count every local array. -/
theorem ecdsaMaxWords_le (wide : 8 ≤ w) : ecdsaMaxWords w ≤ 32 :=
  Nat.div_le_div_left wide (by decide)

theorem lt_two_pow_of_le_64 {count : Nat} (wide : 8 ≤ w) (few : count ≤ 64) : count < 2 ^ w :=
  calc count < 2 ^ 8 := by omega
    _ ≤ 2 ^ w := Nat.pow_le_pow_right Nat.two_pos wide

/-! ## Words -/

/-- A C truth value stored in a word. -/
def wordOfBool (test : Bool) : BitVec w := if test then 1#w else 0#w

theorem toNat_wordOfBool_le (test : Bool) : (wordOfBool test : BitVec w).toNat ≤ 1 := by
  cases test with
  | false => simp [wordOfBool]
  | true => exact Nat.mod_le 1 (2 ^ w)

theorem toNat_wordOfBool (positive : 0 < w) (test : Bool) :
    (wordOfBool test : BitVec w).toNat = test.toNat := by
  cases test with
  | false => rfl
  | true => exact Nat.mod_eq_of_lt (Nat.one_lt_two_pow positive.ne')

/-- A sum of two words and a carry either fits, or wraps once and comes out no larger.  When it is
back where it started nothing was added, or the largest word and a carry. -/
theorem add_carry_cases (word other : BitVec w) {carry : BitVec w} (bit : carry.toNat ≤ 1) :
    ((word + other + carry).toNat = word.toNat + other.toNat + carry.toNat ∧
        (word + other + carry = word → carry.toNat = 0)) ∨
      (0 < w ∧ (word + other + carry).toNat + 2 ^ w = word.toNat + other.toNat + carry.toNat ∧
        (word + other + carry = word → carry.toNat = 1)) := by
  have wordBound := word.isLt
  have otherBound := other.isLt
  have sum : (word + other + carry).toNat =
      (word.toNat + other.toNat + carry.toNat) % 2 ^ w := by
    rw [BitVec.toNat_add, BitVec.toNat_add, Nat.mod_add_mod]
  by_cases fits : word.toNat + other.toNat + carry.toNat < 2 ^ w
  · rw [Nat.mod_eq_of_lt fits] at sum
    refine .inl ⟨sum, fun back => ?_⟩
    rw [back] at sum
    omega
  · have positive : 0 < w := by
      by_contra zero
      obtain rfl : w = 0 := by omega
      have none := carry.isLt
      simp only [pow_zero] at wordBound otherBound fits none
      omega
    rw [Nat.mod_eq_sub_mod (Nat.le_of_not_lt fits), Nat.mod_eq_of_lt (by omega)] at sum
    refine .inr ⟨positive, by omega, fun back => ?_⟩
    rw [back] at sum
    omega

/-- The carry out of one step of `ecdsa_vli_add`. -/
def addCarry (left sum carry : BitVec w) : BitVec w :=
  if sum ≠ left then wordOfBool (sum < left) else carry

/-- The borrow out of one step of `ecdsa_vli_sub`. -/
def subBorrow (left diff borrow : BitVec w) : BitVec w :=
  if diff ≠ left then wordOfBool (diff > left) else borrow

theorem addCarry_le {left sum carry : BitVec w} (bit : carry.toNat ≤ 1) :
    (addCarry left sum carry).toNat ≤ 1 := by
  unfold addCarry
  split
  · exact toNat_wordOfBool_le _
  · exact bit

theorem subBorrow_le {left diff borrow : BitVec w} (bit : borrow.toNat ≤ 1) :
    (subBorrow left diff borrow).toNat ≤ 1 := by
  unfold subBorrow
  split
  · exact toNat_wordOfBool_le _
  · exact bit

theorem addCarry_spec (left right : BitVec w) {carry : BitVec w} (bit : carry.toNat ≤ 1) :
    (left + right + carry).toNat + 2 ^ w * (addCarry left (left + right + carry) carry).toNat =
      left.toNat + right.toNat + carry.toNat := by
  by_cases back : left + right + carry = left
  · rw [addCarry, if_neg (not_not_intro back)]
    rcases add_carry_cases left right bit with ⟨fits, none⟩ | ⟨_, wraps, one⟩
    · rw [none back] at fits ⊢
      exact fits
    · rw [one back] at wraps ⊢
      rw [mul_one]
      exact wraps
  · rw [addCarry, if_pos back]
    rw [← BitVec.toNat_inj] at back
    rcases add_carry_cases left right bit with
      ⟨fits, _⟩ | ⟨positive, wraps, _⟩
    · have kept : ¬ left + right + carry < left := by
        rw [BitVec.lt_def]
        omega
      rw [decide_eq_false kept]
      exact fits
    · have dropped : left + right + carry < left := by
        have bound := right.isLt
        rw [BitVec.lt_def]
        omega
      rw [decide_eq_true dropped, toNat_wordOfBool positive, Bool.toNat_true, mul_one]
      exact wraps

theorem subBorrow_spec (left right : BitVec w) {borrow : BitVec w} (bit : borrow.toNat ≤ 1) :
    left.toNat + 2 ^ w * (subBorrow left (left - right - borrow) borrow).toNat =
      (left - right - borrow).toNat + right.toNat + borrow.toNat := by
  obtain ⟨diff, diff_eq⟩ : ∃ diff, left - right - borrow = diff := ⟨_, rfl⟩
  obtain rfl : left = diff + right + borrow := by
    rw [← diff_eq, BitVec.sub_sub, BitVec.add_assoc, BitVec.sub_add_cancel]
  rw [diff_eq]
  by_cases back : diff + right + borrow = diff
  · rw [subBorrow, if_neg (not_not_intro back.symm)]
    rcases add_carry_cases diff right bit with ⟨fits, none⟩ | ⟨_, wraps, one⟩
    · rw [none back] at fits ⊢
      exact fits
    · rw [one back] at wraps ⊢
      rw [mul_one]
      exact wraps
  · rw [subBorrow, if_pos (Ne.symm back)]
    rw [← BitVec.toNat_inj] at back
    rcases add_carry_cases diff right bit with
      ⟨fits, _⟩ | ⟨positive, wraps, _⟩
    · have kept : ¬ diff > diff + right + borrow := by
        rw [gt_iff_lt, BitVec.lt_def]
        omega
      rw [decide_eq_false kept]
      exact fits
    · have dropped : diff > diff + right + borrow := by
        have bound := right.isLt
        rw [gt_iff_lt, BitVec.lt_def]
        omega
      rw [decide_eq_true dropped, toNat_wordOfBool positive, Bool.toNat_true, mul_one]
      exact wraps

/-! ## Scans -/

/-- `ecdsa_vli_clear`. -/
def vliClear (numWords : Nat) : Vli w := List.replicate numWords 0#w

/-- `ecdsa_vli_isZero`. -/
def vliIsZero (vli : Vli w) : Bool := vli.foldl (fun bits word => bits ||| word) 0#w == 0#w

/-- `ecdsa_vli_testBit`, which does not know where the array ends. -/
def vliTestBit (vli : Vli w) (bit : Nat) : Run Bool :=
  match vli[bit / w]? with
  | none => .error .outOfBounds
  | some word => .ok (word &&& 1#w <<< (bit % w) != 0#w)

/-- The loop of `vli_numDigits`, over the words from the highest one down. -/
def vliNumDigitsFrom : (reversed : Vli w) → Nat
  | [] => 0
  | word :: reversed =>
      if word = 0#w then vliNumDigitsFrom reversed else reversed.length + 1

/-- `vli_numDigits`. -/
def vliNumDigits (vli : Vli w) : Nat := vliNumDigitsFrom vli.reverse

/-- The loop of `ecdsa_vli_numBits`: a digit is empty after at most as many shifts as it has
bits. -/
def wordNumBits : (shifts : Nat) → (digit : BitVec w) → Nat
  | 0, _ => 0
  | shifts + 1, digit => if digit = 0#w then 0 else wordNumBits shifts (digit >>> 1) + 1

/-- `ecdsa_vli_numBits`. -/
def vliNumBits (vli : Vli w) : Nat :=
  let numDigits := vliNumDigits vli
  if numDigits = 0 then 0
  else (numDigits - 1) * w + wordNumBits w (vli.getD (numDigits - 1) 0#w)

@[simp] theorem length_vliClear (numWords : Nat) :
    (vliClear numWords : Vli w).length = numWords := List.length_replicate

@[simp] theorem value_vliClear (numWords : Nat) : Limbs.value (vliClear numWords : Vli w) = 0 :=
  Limbs.value_replicate_zero numWords

/-- A cleared number with its lowest word set. -/
theorem value_vliClear_set {numWords : Nat} (nonempty : 0 < numWords) (word : BitVec w) :
    Limbs.value ((vliClear numWords).set 0 word) = word.toNat := by
  obtain ⟨rest, rfl⟩ := Nat.exists_eq_succ_of_ne_zero nonempty.ne'
  rw [vliClear, List.replicate_succ, List.set_cons_zero, Limbs.value_cons,
    Limbs.value_replicate_zero, mul_zero, add_zero]

theorem foldl_or_eq_zero_iff (vli : Vli w) (bits : BitVec w) :
    vli.foldl (fun bits word => bits ||| word) bits = 0#w ↔
      bits = 0#w ∧ ∀ word ∈ vli, word = 0#w := by
  induction vli generalizing bits with
  | nil => simp
  | cons word vli ih =>
      rw [List.foldl_cons, ih, List.forall_mem_cons, ← and_assoc]
      exact and_congr_left fun _ => BitVec.or_eq_zero_iff

theorem vliIsZero_eq_true_iff {vli : Vli w} : vliIsZero vli = true ↔ Limbs.value vli = 0 := by
  rw [vliIsZero, beq_iff_eq, foldl_or_eq_zero_iff, Limbs.value_eq_zero_iff]
  exact and_iff_right rfl

theorem vliIsZero_eq_false_iff {vli : Vli w} : vliIsZero vli = false ↔ 0 < Limbs.value vli := by
  rw [← Bool.not_eq_true, vliIsZero_eq_true_iff, Nat.pos_iff_ne_zero]

theorem and_bit_ne_zero {word : BitVec w} {bit : Nat} (inside : bit < w) :
    (word &&& 1#w <<< bit != 0#w) = word.getLsbD bit := by
  have set : BitVec.twoPow w bit ≠ 0#w := by
    rw [← BitVec.toNat_ne_iff_ne, BitVec.toNat_twoPow_of_lt inside]
    exact (Nat.two_pow_pos bit).ne'
  rw [← BitVec.twoPow_eq, BitVec.and_twoPow]
  cases word.getLsbD bit <;> simp [set]

theorem vliTestBit_eq (positive : 0 < w) {vli : Vli w} {bit : Nat}
    (inside : bit < w * vli.length) :
    vliTestBit vli bit = .ok ((Limbs.value vli).testBit bit) := by
  have index : bit / w < vli.length := Nat.div_lt_of_lt_mul inside
  rw [vliTestBit, List.getElem?_eq_getElem index]
  dsimp only
  rw [and_bit_ne_zero (Nat.mod_lt bit positive), Limbs.testBit_value positive,
    List.getD_eq_getElem?_getD, List.getElem?_eq_getElem index, Option.getD_some]

theorem vliNumDigits_append_singleton (vli : Vli w) (word : BitVec w) :
    vliNumDigits (vli ++ [word]) = if word = 0#w then vliNumDigits vli else vli.length + 1 := by
  rw [vliNumDigits, List.reverse_append, List.reverse_singleton, List.singleton_append,
    vliNumDigitsFrom, List.length_reverse]
  rfl

/-- Above the digits counted there are only zeros, and the highest digit counted is not one. -/
theorem vliNumDigits_spec (vli : Vli w) :
    vliNumDigits vli ≤ vli.length ∧
      Limbs.value vli = Limbs.value (vli.take (vliNumDigits vli)) ∧
      (0 < vliNumDigits vli → vli.getD (vliNumDigits vli - 1) 0#w ≠ 0#w) := by
  induction vli using List.reverseRecOn with
  | nil => exact ⟨le_rfl, rfl, fun positive => absurd positive (Nat.lt_irrefl 0)⟩
  | append_singleton vli word ih =>
      obtain ⟨below, same, top⟩ := ih
      rw [vliNumDigits_append_singleton, List.length_append, List.length_singleton]
      by_cases zero : word = 0#w
      · rw [if_pos zero, List.take_append_of_le_length below, Limbs.value_append, ← same, zero,
          Limbs.value_cons, Limbs.value_nil]
        refine ⟨Nat.le_succ_of_le below, by simp, fun positive => ?_⟩
        rw [List.getD_eq_getElem?_getD, List.getElem?_append_left (by omega),
          ← List.getD_eq_getElem?_getD]
        exact top positive
      · rw [if_neg zero, List.take_of_length_le (by simp)]
        refine ⟨le_rfl, rfl, fun _ => ?_⟩
        rw [Nat.add_sub_cancel, List.getD_eq_getElem?_getD, List.getElem?_concat_length]
        exact zero

theorem wordNumBits_eq {shifts : Nat} {digit : BitVec w} (small : digit.toNat < 2 ^ shifts) :
    wordNumBits shifts digit = Nat.size digit.toNat := by
  induction shifts generalizing digit with
  | zero =>
      obtain zero : digit.toNat = 0 := by omega
      rw [zero, wordNumBits, Nat.size_zero]
  | succ shifts ih =>
      have half : (digit >>> 1).toNat = digit.toNat / 2 := by
        rw [BitVec.toNat_ushiftRight, Nat.shiftRight_eq_div_pow, pow_one]
      rw [wordNumBits]
      split
      · rename_i zero
        rw [zero, BitVec.toNat_ofNat, Nat.zero_mod, Nat.size_zero]
      · rename_i nonzero
        have positive := Limbs.toNat_pos_of_ne_zero nonzero
        rw [ih (by rw [half]; omega), half]
        have bits := Nat.bit_bodd_div2 digit.toNat
        rw [Nat.div2_val] at bits
        conv_rhs => rw [← bits]
        rw [Nat.size_bit (by rw [bits]; exact positive.ne')]

/-- `ecdsa_vli_numBits` counts the bits of the number. -/
theorem vliNumBits_eq (vli : Vli w) : vliNumBits vli = Nat.size (Limbs.value vli) := by
  obtain ⟨inside, same, top⟩ := vliNumDigits_spec vli
  rw [same, vliNumBits]
  cases counted : vliNumDigits vli with
  | zero => rfl
  | succ digits =>
      rw [counted] at inside top
      have positive : 0 < (vli.getD digits 0#w).toNat :=
        Limbs.toNat_pos_of_ne_zero (top (Nat.succ_pos digits))
      have small := Limbs.value_lt (vli.take digits)
      rw [List.length_take_of_le (by omega)] at small
      rw [if_neg (Nat.succ_ne_zero digits), Nat.add_sub_cancel,
        wordNumBits_eq (vli.getD digits 0#w).isLt, Limbs.value_take_succ inside,
        Limbs.size_add_two_pow_mul small positive, Nat.mul_comm]

/-! ## Addition and subtraction -/

/-- The loop of `ecdsa_vli_add`: the words of the sum, and the last carry. -/
def vliAddFrom : (left right : Vli w) → (carry : BitVec w) → Vli w × BitVec w
  | l :: left, r :: right, carry =>
      let sum := l + r + carry
      let rest := vliAddFrom left right (addCarry l sum carry)
      (sum :: rest.1, rest.2)
  | _, _, carry => ([], carry)

/-- `ecdsa_vli_add`. -/
def vliAdd (left right : Vli w) : Vli w × BitVec w := vliAddFrom left right 0#w

/-- The loop of `ecdsa_vli_sub`: the words of the difference, and the last borrow. -/
def vliSubFrom : (left right : Vli w) → (borrow : BitVec w) → Vli w × BitVec w
  | l :: left, r :: right, borrow =>
      let diff := l - r - borrow
      let rest := vliSubFrom left right (subBorrow l diff borrow)
      (diff :: rest.1, rest.2)
  | _, _, borrow => ([], borrow)

/-- `ecdsa_vli_sub`. -/
def vliSub (left right : Vli w) : Vli w × BitVec w := vliSubFrom left right 0#w

/-- The carry chain loses nothing: the words and the carry out make up the sum. -/
theorem vliAddFrom_spec {left right : Vli w} (carry : BitVec w)
    (lengths : left.length = right.length) (bit : carry.toNat ≤ 1) :
    (vliAddFrom left right carry).1.length = left.length ∧
      (vliAddFrom left right carry).2.toNat ≤ 1 ∧
      Limbs.value (vliAddFrom left right carry).1 +
          2 ^ (w * left.length) * (vliAddFrom left right carry).2.toNat =
        Limbs.value left + Limbs.value right + carry.toNat := by
  induction left generalizing right carry with
  | nil =>
      obtain rfl := List.length_eq_zero_iff.mp lengths.symm
      exact ⟨rfl, bit, by simp [vliAddFrom]⟩
  | cons l left ih =>
      obtain ⟨r, right, rfl⟩ := List.exists_cons_of_length_eq_add_one lengths.symm
      obtain ⟨length_eq, last, total⟩ := ih (addCarry l (l + r + carry) carry)
        (Nat.succ.inj lengths) (addCarry_le bit)
      have step := addCarry_spec l r bit
      refine ⟨by rw [vliAddFrom, List.length_cons, length_eq, List.length_cons], last, ?_⟩
      rw [vliAddFrom, Limbs.value_cons, Limbs.value_cons, Limbs.value_cons, List.length_cons,
        Limbs.pow_mul_succ]
      linear_combination 2 ^ w * total + step

/-- The borrow chain loses nothing. -/
theorem vliSubFrom_spec {left right : Vli w} (borrow : BitVec w)
    (lengths : left.length = right.length) (bit : borrow.toNat ≤ 1) :
    (vliSubFrom left right borrow).1.length = left.length ∧
      (vliSubFrom left right borrow).2.toNat ≤ 1 ∧
      Limbs.value left + 2 ^ (w * left.length) * (vliSubFrom left right borrow).2.toNat =
        Limbs.value (vliSubFrom left right borrow).1 + Limbs.value right + borrow.toNat := by
  induction left generalizing right borrow with
  | nil =>
      obtain rfl := List.length_eq_zero_iff.mp lengths.symm
      exact ⟨rfl, bit, by simp [vliSubFrom]⟩
  | cons l left ih =>
      obtain ⟨r, right, rfl⟩ := List.exists_cons_of_length_eq_add_one lengths.symm
      obtain ⟨length_eq, last, total⟩ := ih (subBorrow l (l - r - borrow) borrow)
        (Nat.succ.inj lengths) (subBorrow_le bit)
      have step := subBorrow_spec l r bit
      refine ⟨by rw [vliSubFrom, List.length_cons, length_eq, List.length_cons], last, ?_⟩
      rw [vliSubFrom, Limbs.value_cons, Limbs.value_cons, Limbs.value_cons, List.length_cons,
        Limbs.pow_mul_succ]
      linear_combination 2 ^ w * total + step

section Chains

variable {left right : Vli w} (lengths : left.length = right.length)

include lengths

theorem length_vliAdd : (vliAdd left right).1.length = left.length :=
  (vliAddFrom_spec 0#w lengths (by simp)).1

theorem vliAdd_spec :
    Limbs.value (vliAdd left right).1 + 2 ^ (w * left.length) * (vliAdd left right).2.toNat =
      Limbs.value left + Limbs.value right :=
  (vliAddFrom_spec 0#w lengths (by simp)).2.2

theorem vliAdd_carry_le : (vliAdd left right).2.toNat ≤ 1 :=
  (vliAddFrom_spec 0#w lengths (by simp)).2.1

theorem length_vliSub : (vliSub left right).1.length = left.length :=
  (vliSubFrom_spec 0#w lengths (by simp)).1

theorem vliSub_spec :
    Limbs.value left + 2 ^ (w * left.length) * (vliSub left right).2.toNat =
      Limbs.value (vliSub left right).1 + Limbs.value right :=
  (vliSubFrom_spec 0#w lengths (by simp)).2.2

theorem vliSub_borrow_le : (vliSub left right).2.toNat ≤ 1 :=
  (vliSubFrom_spec 0#w lengths (by simp)).2.1

/-- There is a carry exactly when the sum does not fit. -/
theorem vliAdd_carry_eq_zero_iff :
    (vliAdd left right).2 = 0#w ↔
      Limbs.value left + Limbs.value right < 2 ^ (w * left.length) := by
  have total := vliAdd_spec lengths
  have bound := Limbs.value_lt (vliAdd left right).1
  rw [length_vliAdd lengths] at bound
  constructor
  · intro none
    rw [none, BitVec.toNat_zero, mul_zero] at total
    omega
  · intro fits
    by_contra carried
    have positive := Nat.mul_le_mul_left (2 ^ (w * left.length))
      (Limbs.toNat_pos_of_ne_zero carried)
    omega

/-- There is a borrow exactly when the subtrahend is larger. -/
theorem vliSub_borrow_eq_zero_iff :
    (vliSub left right).2 = 0#w ↔ Limbs.value right ≤ Limbs.value left := by
  have total := vliSub_spec lengths
  have bound := Limbs.value_lt (vliSub left right).1
  rw [length_vliSub lengths] at bound
  constructor
  · intro none
    rw [none, BitVec.toNat_zero, mul_zero] at total
    omega
  · intro fits
    by_contra borrowed
    have positive := Nat.mul_le_mul_left (2 ^ (w * left.length))
      (Limbs.toNat_pos_of_ne_zero borrowed)
    omega

/-- The words of a sum, without the carry. -/
theorem value_vliAdd :
    Limbs.value (vliAdd left right).1 =
      (Limbs.value left + Limbs.value right) % 2 ^ (w * left.length) := by
  have bound := Limbs.value_lt (vliAdd left right).1
  rw [length_vliAdd lengths] at bound
  rw [← vliAdd_spec lengths, Nat.add_mul_mod_self_left, Nat.mod_eq_of_lt bound]

theorem value_vliSub_of_le (below : Limbs.value right ≤ Limbs.value left) :
    Limbs.value (vliSub left right).1 = Limbs.value left - Limbs.value right := by
  have total := vliSub_spec lengths
  rw [(vliSub_borrow_eq_zero_iff lengths).mpr below, BitVec.toNat_zero, mul_zero] at total
  omega

/-- The words of a difference that wraps. -/
theorem value_vliSub_of_lt (above : Limbs.value left < Limbs.value right) :
    Limbs.value (vliSub left right).1 =
      2 ^ (w * left.length) + Limbs.value left - Limbs.value right := by
  have total := vliSub_spec lengths
  have last := vliSub_borrow_le lengths
  have borrowed : (vliSub left right).2.toNat ≠ 0 := by
    intro zero
    have fits := (vliSub_borrow_eq_zero_iff lengths).mp (BitVec.eq_of_toNat_eq zero)
    omega
  have one : (vliSub left right).2.toNat = 1 := by
    omega
  rw [one, mul_one] at total
  omega

end Chains

/-- Words and a bit above them are determined by the number. -/
theorem eq_of_value_add_carry_eq {left right : Vli w} {carry borrow : BitVec w}
    (lengths : left.length = right.length) (bit : carry.toNat ≤ 1) (other : borrow.toNat ≤ 1)
    (total : Limbs.value left + 2 ^ (w * right.length) * carry.toNat =
      Limbs.value right + 2 ^ (w * right.length) * borrow.toNat) :
    left = right ∧ carry = borrow := by
  have small := Limbs.value_lt left
  have bound := Limbs.value_lt right
  rw [lengths] at small
  have carries : carry.toNat = borrow.toNat := by
    rcases Nat.le_one_iff_eq_zero_or_eq_one.mp bit with zero | one <;>
      rcases Nat.le_one_iff_eq_zero_or_eq_one.mp other with none | taken <;>
      simp only [*, mul_zero, mul_one] at total ⊢ <;> omega
  rw [carries] at total
  exact ⟨Limbs.eq_of_value_eq lengths (Nat.add_right_cancel total), BitVec.eq_of_toNat_eq carries⟩

/-- Subtracting undoes adding and adding undoes subtracting, and the borrow of the one is the carry
of the other. -/
theorem vliAdd_vliSub_inverse {left right : Vli w} (lengths : left.length = right.length) :
    vliSub (vliAdd left right).1 right = (left, (vliAdd left right).2) ∧
      vliAdd (vliSub left right).1 right = (left, (vliSub left right).2) := by
  have sumLength := length_vliAdd lengths
  have diffLength := length_vliSub lengths
  have sumLengths := sumLength.trans lengths
  have diffLengths := diffLength.trans lengths
  have sum := vliAdd_spec lengths
  have diff := vliSub_spec lengths
  have back := vliSub_spec sumLengths
  have again := vliAdd_spec diffLengths
  rw [sumLength] at back
  rw [diffLength] at again
  constructor
  · obtain ⟨words, bits⟩ := eq_of_value_add_carry_eq ((length_vliSub sumLengths).trans sumLength)
      (vliAdd_carry_le lengths) (vliSub_borrow_le sumLengths) (by omega)
    exact Prod.ext words bits.symm
  · obtain ⟨words, bits⟩ := eq_of_value_add_carry_eq ((length_vliAdd diffLengths).trans diffLength)
      (vliAdd_carry_le diffLengths) (vliSub_borrow_le lengths) (again.trans diff.symm)
    exact Prod.ext words bits

theorem vliAdd_vliSub_inverse_wrapping :
    vliSub (vliAdd [0xff#8, 0xff#8] [1#8, 0#8]).1 [1#8, 0#8] = ([0xff#8, 0xff#8], 1#8) ∧
      vliAdd (vliSub [0#8, 0#8] [1#8, 0#8]).1 [1#8, 0#8] = ([0#8, 0#8], 1#8) :=
  ⟨(@vliAdd_vliSub_inverse 8 [0xff, 0xff] [1, 0] rfl).1,
    (@vliAdd_vliSub_inverse 8 [0, 0] [1, 0] rfl).2⟩

/-! ## Comparisons -/

/-- The loop of `ecdsa_vli_cmp_unsafe`, with `i` words left to compare. -/
def vliCmpUnsafeFrom (left right : Vli w) : (i : Nat) → Int
  | 0 => 0
  | i + 1 =>
      if left.getD i 0#w > right.getD i 0#w then 1
      else if left.getD i 0#w < right.getD i 0#w then -1
      else vliCmpUnsafeFrom left right i

/-- `ecdsa_vli_cmp_unsafe`. -/
def vliCmpUnsafe (left right : Vli w) : Int := vliCmpUnsafeFrom left right left.length

/-- `ecdsa_vli_equal`; the differences are collected from the highest word down. -/
def vliEqual (left right : Vli w) : Bool :=
  (left.zip right).foldr (fun (l, r) diff => diff ||| l ^^^ r) 0#w == 0#w

/-- `ecdsa_vli_cmp`, with the difference in `tmp[ecdsa_MAX_WORDS]`. -/
def vliCmp (left right : Vli w) : Run Int :=
  withArray (ecdsaMaxWords w) left.length <|
    let tmp := vliSub left right
    let neg : Int := if tmp.2 ≠ 0#w then 1 else 0
    let equal := vliIsZero tmp.1
    .ok ((if equal then 0 else 1) - 2 * neg)

theorem vliCmpUnsafeFrom_eq {left right : Vli w} {i : Nat} (insideLeft : i ≤ left.length)
    (insideRight : i ≤ right.length) :
    vliCmpUnsafeFrom left right i =
      Int.sign (Limbs.value (left.take i) - Limbs.value (right.take i)) := by
  induction i with
  | zero => rfl
  | succ i ih =>
      have leftSmall := Limbs.value_lt (left.take i)
      have rightSmall := Limbs.value_lt (right.take i)
      rw [List.length_take_of_le (by omega)] at leftSmall rightSmall
      rw [vliCmpUnsafeFrom, Limbs.value_take_succ insideLeft, Limbs.value_take_succ insideRight]
      by_cases above : left.getD i 0#w > right.getD i 0#w
      · have larger := Limbs.add_mul_lt_add_mul (Limbs.value (left.take i)) rightSmall above
        rw [if_pos above, eq_comm, Int.sign_eq_one_iff_pos]
        omega
      · rw [if_neg above]
        by_cases below : left.getD i 0#w < right.getD i 0#w
        · have smaller :=
            Limbs.add_mul_lt_add_mul (Limbs.value (right.take i)) leftSmall below
          rw [if_pos below, eq_comm, Int.sign_eq_neg_one_iff_neg]
          omega
        · have same : left.getD i 0#w = right.getD i 0#w :=
            BitVec.le_antisymm (BitVec.not_lt.mp above) (BitVec.not_lt.mp below)
          rw [if_neg below, ih (by omega) (by omega), same]
          congr 1
          omega

theorem foldr_xor_eq_zero_iff {left right : Vli w} (lengths : left.length = right.length) :
    (left.zip right).foldr (fun (l, r) diff => diff ||| l ^^^ r) 0#w = 0#w ↔ left = right := by
  induction left generalizing right with
  | nil =>
      obtain rfl := List.length_eq_zero_iff.mp lengths.symm
      simp
  | cons l left ih =>
      obtain ⟨r, right, rfl⟩ := List.exists_cons_of_length_eq_add_one lengths.symm
      rw [List.zip_cons_cons, List.foldr_cons, BitVec.or_eq_zero_iff, ih (Nat.succ.inj lengths),
        BitVec.xor_eq_zero_iff, List.cons.injEq]
      exact and_comm

section Comparisons

variable {left right : Vli w} (lengths : left.length = right.length)

include lengths

/-- `ecdsa_vli_cmp_unsafe` returns the sign of the difference. -/
theorem vliCmpUnsafe_eq :
    vliCmpUnsafe left right = Int.sign (Limbs.value left - Limbs.value right) := by
  rw [vliCmpUnsafe, vliCmpUnsafeFrom_eq le_rfl lengths.le, List.take_length, lengths,
    List.take_length]

theorem vliCmpUnsafe_eq_one_iff :
    vliCmpUnsafe left right = 1 ↔ Limbs.value right < Limbs.value left := by
  rw [vliCmpUnsafe_eq lengths, Int.sign_eq_one_iff_pos]
  omega

theorem vliCmpUnsafe_eq_zero_iff :
    vliCmpUnsafe left right = 0 ↔ Limbs.value left = Limbs.value right := by
  rw [vliCmpUnsafe_eq lengths, Int.sign_eq_zero_iff_zero]
  omega

theorem vliCmpUnsafe_neg_iff :
    vliCmpUnsafe left right < 0 ↔ Limbs.value left < Limbs.value right := by
  rw [vliCmpUnsafe_eq lengths, Int.sign_neg_iff]
  omega

theorem vliCmpUnsafe_pos_iff :
    vliCmpUnsafe left right > 0 ↔ Limbs.value right < Limbs.value left := by
  rw [vliCmpUnsafe_eq lengths, gt_iff_lt, Int.sign_pos_iff]
  omega

/-- `ecdsa_vli_cmp` returns the sign of the difference, as long as its array holds it. -/
theorem vliCmp_eq (room : left.length ≤ ecdsaMaxWords w) :
    vliCmp left right = .ok (Int.sign (Limbs.value left - Limbs.value right)) := by
  rw [vliCmp, withArray_of_le room]
  rcases Nat.lt_trichotomy (Limbs.value left) (Limbs.value right) with below | same | above
  · have borrowed : (vliSub left right).2 ≠ 0#w :=
      (vliSub_borrow_eq_zero_iff lengths).not.mpr (Nat.not_le_of_lt below)
    have bound := Limbs.value_lt right
    have nonzero : vliIsZero (vliSub left right).1 = false := by
      rw [vliIsZero_eq_false_iff, value_vliSub_of_lt lengths below, lengths]
      omega
    simp only [nonzero, if_pos borrowed]
    rw [Int.sign_eq_neg_one_iff_neg.mpr (by omega)]
    rfl
  · have none := (vliSub_borrow_eq_zero_iff lengths).mpr same.ge
    have zero : vliIsZero (vliSub left right).1 = true := by
      rw [vliIsZero_eq_true_iff, value_vliSub_of_le lengths same.ge, same, Nat.sub_self]
    simp only [zero, none, same, sub_self]
    rfl
  · have none := (vliSub_borrow_eq_zero_iff lengths).mpr above.le
    have nonzero : vliIsZero (vliSub left right).1 = false := by
      rw [vliIsZero_eq_false_iff, value_vliSub_of_le lengths above.le]
      omega
    simp only [nonzero, none]
    rw [Int.sign_eq_one_iff_pos.mpr (by omega)]
    rfl

/-- `ecdsa_vli_cmp` returns what `ecdsa_vli_cmp_unsafe` returns. -/
theorem vliCmp_eq_vliCmpUnsafe (room : left.length ≤ ecdsaMaxWords w) :
    vliCmp left right = .ok (vliCmpUnsafe left right) := by
  rw [vliCmp_eq lengths room, vliCmpUnsafe_eq lengths]

theorem vliEqual_eq_true_iff :
    vliEqual left right = true ↔ Limbs.value left = Limbs.value right := by
  rw [vliEqual, beq_iff_eq, foldr_xor_eq_zero_iff lengths]
  exact ⟨congrArg Limbs.value, Limbs.eq_of_value_eq lengths⟩

end Comparisons

/-- The three comparisons agree, and decide the order of the numbers and the equality of the words,
for as many words as `ecdsa_vli_cmp` has room for. -/
theorem comparisons_agree {left right : Vli w} (lengths : left.length = right.length)
    (room : left.length ≤ ecdsaMaxWords w) :
    vliCmp left right = .ok (vliCmpUnsafe left right) ∧
      vliCmpUnsafe right left = -vliCmpUnsafe left right ∧
      (vliCmpUnsafe left right = 1 ↔ Limbs.value right < Limbs.value left) ∧
      (vliEqual left right = true ↔ vliCmpUnsafe left right = 0) ∧
      (vliEqual left right = true ↔ left = right) := by
  have equal := vliEqual_eq_true_iff lengths
  refine ⟨vliCmp_eq_vliCmpUnsafe lengths room, ?_, vliCmpUnsafe_eq_one_iff lengths,
    equal.trans (vliCmpUnsafe_eq_zero_iff lengths).symm, equal.trans ⟨?_, ?_⟩⟩
  · rw [vliCmpUnsafe_eq lengths, vliCmpUnsafe_eq lengths.symm, ← Int.sign_neg, neg_sub]
  · exact Limbs.eq_of_value_eq lengths
  · exact congrArg Limbs.value

theorem comparisons_agree_second_word :
    vliCmp [7#8, 1#8] [9#8, 0#8] = .ok 1 ∧ vliCmpUnsafe [9#8, 0#8] [7#8, 1#8] = -1 :=
  ⟨(@comparisons_agree 8 [7, 1] [9, 0] rfl (by decide)).1,
    (@comparisons_agree 8 [7, 1] [9, 0] rfl (by decide)).2.1⟩

/-! ## Halving -/

/-- The loop of `ecdsa_vli_rshift1`, from the highest word down: the shifted words, and the bit that
is carried into the word below them. -/
def vliRshift1From : Vli w → Vli w × BitVec w
  | [] => ([], 0#w)
  | word :: vli =>
      let rest := vliRshift1From vli
      ((word >>> 1 ||| rest.2) :: rest.1, word <<< (w - 1))

/-- `ecdsa_vli_rshift1`. -/
def vliRshift1 (vli : Vli w) : Vli w := (vliRshift1From vli).1

/-- A bit set in the highest place, which the shift left empty. -/
theorem toNat_shiftRight_or_shiftLeft (positive : 0 < w) (word high : BitVec w) :
    (word >>> 1 ||| high <<< (w - 1)).toNat = word.toNat / 2 + 2 ^ (w - 1) * (high.toNat % 2) := by
  have bound := word.isLt
  have width : 2 ^ w = 2 ^ (w - 1) * 2 := by
    rw [← pow_succ, Nat.sub_add_cancel positive]
  have top : (high <<< (w - 1)).toNat = 2 ^ (w - 1) * (high.toNat % 2) := by
    rw [BitVec.toNat_shiftLeft, Nat.shiftLeft_eq, Nat.mul_comm, width, Nat.mul_mod_mul_left]
  have half : (word >>> 1).toNat = word.toNat / 2 := by
    rw [BitVec.toNat_ushiftRight, Nat.shiftRight_eq_div_pow, pow_one]
  rw [BitVec.toNat_or, half, top, Nat.or_comm, Nat.add_comm]
  exact (Nat.two_pow_add_eq_or_of_lt (by omega) _).symm

theorem vliRshift1From_spec (positive : 0 < w) (vli : Vli w) :
    (vliRshift1From vli).1.length = vli.length ∧
      Limbs.value (vliRshift1From vli).1 = Limbs.value vli / 2 ∧
      ∃ bit : BitVec w, (vliRshift1From vli).2 = bit <<< (w - 1) ∧
        bit.toNat % 2 = Limbs.value vli % 2 := by
  have width : 2 ^ w = 2 ^ (w - 1) * 2 := by
    rw [← pow_succ, Nat.sub_add_cancel positive]
  induction vli with
  | nil => exact ⟨rfl, by simp [vliRshift1From], 0#w, by simp [vliRshift1From], by simp⟩
  | cons word vli ih =>
      obtain ⟨length_eq, half, bit, carried, parity⟩ := ih
      refine ⟨by rw [vliRshift1From, List.length_cons, length_eq, List.length_cons], ?_, word, rfl,
        ?_⟩
      · rw [vliRshift1From, Limbs.value_cons, carried, toNat_shiftRight_or_shiftLeft positive,
          parity, half, Limbs.value_cons]
        calc word.toNat / 2 + 2 ^ (w - 1) * (Limbs.value vli % 2) + 2 ^ w * (Limbs.value vli / 2)
            = word.toNat / 2 + 2 ^ (w - 1) * (Limbs.value vli % 2 + 2 * (Limbs.value vli / 2)) := by
              rw [width]
              ring
          _ = (word.toNat + 2 * (2 ^ (w - 1) * Limbs.value vli)) / 2 := by
              rw [Nat.mod_add_div, Nat.add_mul_div_left _ _ Nat.two_pos]
          _ = (word.toNat + 2 ^ w * Limbs.value vli) / 2 := by
              rw [width]
              ring_nf
      · rw [Limbs.value_cons, width, mul_assoc, Nat.mul_left_comm, Nat.add_mul_mod_self_left]

@[simp] theorem length_vliRshift1 (positive : 0 < w) (vli : Vli w) :
    (vliRshift1 vli).length = vli.length := (vliRshift1From_spec positive vli).1

theorem value_vliRshift1 (positive : 0 < w) (vli : Vli w) :
    Limbs.value (vliRshift1 vli) = Limbs.value vli / 2 := (vliRshift1From_spec positive vli).2.1

end Freecoin
